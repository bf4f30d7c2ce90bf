import CoapBroker.Libcoap.OptionCodec
import CoapBroker.Libcoap.OptionFilter
import CoapBroker.Libcoap.Resource

/-!
# Messages on the wire

A message in its buffer (`coap_pdu_t`): how it is put together (`coap_add_token`,
`coap_add_option`, `coap_add_data`), how a received one is checked (`coap_pdu_parse`), and how its
options are gone through, all of them or those a filter lets pass (`coap_option_next`).

* `coapPduParse_iff`: the datagrams that are accepted are exactly those that the format
  (`WireMessage.bytes`) makes of a message.
* `iterate_eq`: going through an accepted message gives its options, filtered; numbers are added
  up in 16 bits.
-/

namespace CoapBroker

def coapMaxPduSize : ℕ := 1400
def coapDefaultVersion : ℕ := 1

/-- The size of the header (`sizeof(coap_hdr_t)`). -/
def coapHdrSize : ℕ := 4

/-- `COAP_PAYLOAD_START`. -/
def coapPayloadStart : Byte := 0xFF

def coapMessageCon : ℕ := 0
def coapMessageNon : ℕ := 1
def coapMessageAck : ℕ := 2
def coapMessageRst : ℕ := 3

/-! ## Putting a message together -/

/-- A message in a buffer of size `maxSize`: its header, its token and the bytes after it;
    `data` is where the payload begins among these. -/
structure CoapPdu where
  maxSize : ℕ
  version : ℕ := coapDefaultVersion
  type : ℕ
  code : ℕ
  id : Byte × Byte
  token : List Byte := []
  body : List Byte := []
  maxDelta : ℕ := 0
  data : Option ℕ := none
  deriving DecidableEq

namespace CoapPdu

/-- The length of a message. -/
def length (pdu : CoapPdu) : ℕ := coapHdrSize + pdu.token.length + pdu.body.length

/-- The bytes of a message. -/
def bytes (pdu : CoapPdu) : List Byte :=
  UInt8.ofNat (pdu.version <<< 6 ||| pdu.type <<< 4 ||| pdu.token.length) ::
    UInt8.ofNat pdu.code :: pdu.id.1 :: pdu.id.2 :: (pdu.token ++ pdu.body)

end CoapPdu

/-- `coap_pdu_init`: a buffer that is too large fails an assertion, one that is too small gives
    no message. -/
def coapPduInit (type code : ℕ) (id : Byte × Byte) (size : ℕ) : Except Fault (Option CoapPdu) :=
  if coapMaxPduSize < size then .error .assertion
  else if size < coapHdrSize then .ok none
  else .ok (some { maxSize := size, type := type % 4, code := code % 2 ^ 8, id })

/-- `coap_add_token`, dropping whatever comes after the token. -/
def coapAddToken (pdu : CoapPdu) (token : List Byte) : Option CoapPdu :=
  if 8 < token.length ∨ pdu.maxSize < token.length + 4 then none
  else some { pdu with token, body := [], maxDelta := 0, data := none }

/-- `coap_add_option`: the size of the encoded option, `0` when it is refused. -/
def coapAddOption (pdu : CoapPdu) (type : ℕ) (data : List Byte) : CoapPdu × ℕ :=
  let pdu := { pdu with data := none }
  if type < pdu.maxDelta then (pdu, 0)
  else
    match coapOptEncode (pdu.maxSize - pdu.length) (type - pdu.maxDelta) data with
    | none => (pdu, 0)
    | some opt => ({ pdu with body := pdu.body ++ opt, maxDelta := type }, opt.length)

/-- `coap_add_data`, to a message without data. -/
def coapAddData (pdu : CoapPdu) (data : List Byte) : Except Fault (CoapPdu × Bool) :=
  if pdu.data.isSome then .error .assertion
  else if data.length = 0 then .ok (pdu, true)
  else if pdu.maxSize < pdu.length + data.length + 1 then .ok (pdu, false)
  else
    .ok ({ pdu with
      body := pdu.body ++ coapPayloadStart :: data, data := some (pdu.body.length + 1) }, true)

/-- `coap_get_data`. -/
def coapGetData (pdu : CoapPdu) : Option (List Byte) := pdu.data.map fun i => pdu.body.drop i

/-! ## Checking a message -/

/-- The loop of `coap_pdu_parse`: what follows the options. -/
def parseOptions (past : Byte) : ℕ → List Byte → Option (List Byte)
  | 0, _ => none
  | n + 1, opt =>
    if opt = [] ∨ opt.head? = some coapPayloadStart then some opt
    else
      match coapOptParse past opt with
      | none => none
      | some o => parseOptions past n (opt.drop o.size)

/-- `coap_pdu_parse`. A datagram without a whole header is discarded, whatever is read behind
    its end. -/
def coapPduParse (past : Byte) (data : List Byte) (pdu : CoapPdu) : Option CoapPdu :=
  if pdu.maxSize < data.length then none
  else
    match data with
    | b₀ :: b₁ :: b₂ :: b₃ :: rest =>
      let tokenLength := b₀.toNat &&& 0x0f
      if b₁ = 0 ∧ (data.length ≠ coapHdrSize ∨ tokenLength ≠ 0) then none
      else if data.length < coapHdrSize + tokenLength ∨ 8 < tokenLength then none
      else
        let pdu := { pdu with
          version := b₀.toNat >>> 6
          type := b₀.toNat >>> 4 &&& 0x03
          code := b₁.toNat
          id := (b₂, b₃)
          token := rest.take tokenLength
          body := rest.drop tokenLength
          data := none }
        match parseOptions past (pdu.body.length + 1) pdu.body with
        | none => none
        | some [] => some pdu
        | some [_] => none
        | some (_ :: payload) => some { pdu with data := some (pdu.body.length - payload.length) }
    | _ => none

/-! ## Going through the options -/

/-- `coap_opt_length`, in 16 bits. -/
def coapOptLength (past : Byte) (opt : List Byte) : ℕ :=
  let n := byteAt past opt &&& 0x0f
  if byteAt past opt &&& 0xf0 = 0xf0 then 0
  else
    let opt := opt.drop (if byteAt past opt &&& 0xf0 = 0xe0 then 3
      else if byteAt past opt &&& 0xf0 = 0xd0 then 2 else 1)
    match n with
    | 15 => 0
    | 14 => ((byteAt past opt <<< 8 + 269) % 2 ^ 16 + byteAt past (opt.drop 1)) % 2 ^ 16
    | 13 => 13 + byteAt past opt
    | n => n

/-- `coap_opt_value`: from the value of the option on. -/
def coapOptValue (past : Byte) (opt : List Byte) : Option (List Byte) :=
  if byteAt past opt &&& 0xf0 = 0xf0 then none
  else if byteAt past opt &&& 0x0f = 0x0f then none
  else
    let ofs := 1 + (if byteAt past opt &&& 0xf0 = 0xe0 then 2
      else if byteAt past opt &&& 0xf0 = 0xd0 then 1 else 0)
    some (opt.drop (ofs + (if byteAt past opt &&& 0x0f = 0x0e then 2
      else if byteAt past opt &&& 0x0f = 0x0d then 1 else 0)))

/-- An iterator over the options of a message (`coap_opt_iterator_t`), `rest` being what is left
    of the message. -/
structure OptIterator where
  rest : List Byte := []
  type : ℕ := 0
  bad : Bool := false
  filter : Option OptFilter := none

/-- `coap_option_iterator_init`. -/
def coapOptionIteratorInit (pdu : CoapPdu) (filter : Option OptFilter) : OptIterator :=
  if pdu.body = [] then { bad := true } else { rest := pdu.body, filter }

/-- An iterator stops at an option. -/
def OptIterator.Passes (filter : Option OptFilter) (type : ℕ) : Bool :=
  match filter with
  | none => true
  | some f => coapOptionFilterGet f type

/-- The loop of `coap_option_next`. -/
def optionNextLoop (past : Byte) : ℕ → OptIterator → Option (List Byte × OptIterator)
  | 0, _ => none
  | n + 1, oi =>
    match coapOptParse past oi.rest with
    | none => none
    | some o =>
      let oi' := { oi with rest := oi.rest.drop o.size, type := (oi.type + o.delta) % 2 ^ 16 }
      if OptIterator.Passes oi.filter oi'.type then some (oi.rest, oi') else optionNextLoop past n oi'

/-- `coap_option_next`: the option, and the iterator after it. An iterator that gives none is bad,
    and gives none from then on. -/
def coapOptionNext (past : Byte) (oi : OptIterator) : Option (List Byte × OptIterator) :=
  if oi.bad ∨ oi.rest = [] ∨ oi.rest.head? = some coapPayloadStart then none
  else optionNextLoop past (oi.rest.length + 1) oi

/-- A loop over the options, with their numbers and their values. -/
def iterateFrom (past : Byte) : ℕ → OptIterator → List CoapOption
  | 0, _ => []
  | n + 1, oi =>
    match coapOptionNext past oi with
    | none => []
    | some (opt, oi) =>
      ⟨oi.type, ((coapOptValue past opt).getD []).take (coapOptLength past opt)⟩ ::
        iterateFrom past n oi

/-- The options of a message that a filter lets pass, in order. -/
def CoapPdu.iterate (past : Byte) (pdu : CoapPdu) (filter : Option OptFilter) : List CoapOption :=
  iterateFrom past (pdu.body.length + 1) (coapOptionIteratorInit pdu filter)

/-- `coap_check_option`: the first option of a number. -/
def coapCheckOption (past : Byte) (pdu : CoapPdu) (type : ℕ) : Option (List Byte × OptIterator) :=
  coapOptionNext past
    (coapOptionIteratorInit pdu (some (coapOptionFilterOp OptFilter.clear type .set).1))

/-- A message as the handlers see it. -/
def CoapPdu.request (past : Byte) (pdu : CoapPdu) : Request where
  options := pdu.iterate past none
  payload := coapGetData pdu

/-! ## The format -/

/-- Options with the differences of their numbers, as the format has them. -/
def encodeOptions (gaps : List (ℕ × List Byte)) : List Byte :=
  gaps.flatMap fun g => encodeOption g.1 g.2

/-- The difference and the length that can be written. -/
def Encodable (g : ℕ × List Byte) : Prop := g.1 < 65549 ∧ g.2.length < 65805

/-- What can follow the options. -/
def AtEnd (rest : List Byte) : Prop := rest = [] ∨ rest.head? = some coapPayloadStart

/-- The options with their numbers, which are added up in 16 bits from `t` on. -/
def numbered (t : ℕ) : List (ℕ × List Byte) → List CoapOption
  | [] => []
  | g :: gaps => ⟨(t + g.1) % 2 ^ 16, g.2⟩ :: numbered ((t + g.1) % 2 ^ 16) gaps

/-- The payload after its marker, which is left out with an empty one. -/
def encodePayload (payload : List Byte) : List Byte :=
  if payload = [] then [] else coapPayloadStart :: payload

theorem coapDefaultVersion_lt : coapDefaultVersion < 4 := by decide

theorem coapMessageCon_lt : coapMessageCon < 4 := by decide

theorem coapMessageAck_lt : coapMessageAck < 4 := by decide

/-- A message. -/
structure WireMessage where
  version : ℕ
  type : ℕ
  code : Byte
  id : Byte × Byte
  token : List Byte
  gaps : List (ℕ × List Byte)
  payload : List Byte
  version_lt : version < 4
  type_lt : type < 4
  token_le : token.length ≤ 8
  encodable : ∀ g ∈ gaps, Encodable g
  /-- An empty message is nothing but its header. -/
  empty : code = 0 → token = [] ∧ gaps = [] ∧ payload = []

namespace WireMessage

/-- What comes after the token. -/
def body (m : WireMessage) : List Byte := encodeOptions m.gaps ++ encodePayload m.payload

/-- The bytes the format makes of a message. -/
def bytes (m : WireMessage) : List Byte :=
  UInt8.ofNat (64 * m.version + 16 * m.type + m.token.length) :: m.code :: m.id.1 :: m.id.2 ::
    (m.token ++ m.body)

/-- The message in a buffer of the size of another. -/
def toPdu (m : WireMessage) (pdu : CoapPdu) : CoapPdu :=
  { pdu with
    version := m.version, type := m.type, code := m.code.toNat, id := m.id, token := m.token
    body := m.body
    data := if m.payload = [] then none else some (m.body.length - m.payload.length) }

end WireMessage

/-! ## Accepted messages -/

section

variable {past : Byte}

theorem length_encodeOption (delta : ℕ) (value : List Byte) :
    0 < (encodeOption delta value).length := by
  rw [encodeOption, encodeHeader, List.cons_append, List.length_cons]
  exact Nat.succ_pos _

/-- An option does not begin as the payload does. -/
theorem head_encodeOption (delta : ℕ) (value rest : List Byte) :
    (encodeOption delta value ++ rest).head? ≠ some coapPayloadStart := by
  have hn := encodeNumber_fst_lt delta
  have hm := encodeNumber_fst_lt value.length
  intro h
  have hbyte : (UInt8.ofNat (16 * (encodeNumber delta).1 + (encodeNumber value.length).1)).toNat =
      255 := congrArg UInt8.toNat (Option.some.inj h)
  rw [UInt8.toNat_ofNat', Nat.mod_eq_of_lt (by omega)] at hbyte
  omega

@[simp] theorem encodeOptions_nil : encodeOptions [] = [] := rfl

theorem encodeOptions_cons (g : ℕ × List Byte) (gaps : List (ℕ × List Byte)) :
    encodeOptions (g :: gaps) = encodeOption g.1 g.2 ++ encodeOptions gaps := rfl

theorem atEnd_encodePayload (payload : List Byte) : AtEnd (encodePayload payload) := by
  rw [encodePayload]
  split_ifs
  · exact .inl rfl
  · exact .inr rfl

/-- The options are checked up to their end if they are what the format makes of some. -/
theorem parseOptions_iff {n : ℕ} {opt rest : List Byte} (hn : opt.length < n) :
    parseOptions past n opt = some rest ↔
      ∃ gaps, (∀ g ∈ gaps, Encodable g) ∧ opt = encodeOptions gaps ++ rest ∧ AtEnd rest := by
  induction n generalizing opt with
  | zero => exact absurd hn (Nat.not_lt_zero _)
  | succ n ih =>
    rw [parseOptions]
    by_cases hend : opt = [] ∨ opt.head? = some coapPayloadStart
    · rw [if_pos hend]
      constructor
      · rintro ⟨⟩
        exact ⟨[], by simp, rfl, hend⟩
      · rintro ⟨gaps, -, rfl, -⟩
        rcases gaps with _ | ⟨g, gaps⟩
        · rfl
        -- no option begins here
        · rw [encodeOptions_cons, List.append_assoc] at hend
          rcases hend with hnil | hhead
          · have hlen := length_encodeOption g.1 g.2
            rw [(List.append_eq_nil_iff.1 hnil).1] at hlen
            exact absurd hlen (lt_irrefl _)
          · exact absurd hhead (head_encodeOption _ _ _)
    · rw [if_neg hend]
      rcases hparse : coapOptParse past opt with _ | o
      · refine iff_of_false (by simp) ?_
        rintro ⟨gaps, hgaps, rfl, hrest⟩
        rcases gaps with _ | ⟨g, gaps⟩
        · exact hend hrest
        · obtain ⟨hdelta, hlength⟩ := hgaps g List.mem_cons_self
          rw [encodeOptions_cons, List.append_assoc, coapOptParse_encodeOption past hdelta hlength]
            at hparse
          cases hparse
      · obtain ⟨delta, tail, hdelta, hlength, -, rfl, hsize⟩ := coapOptParse_iff.1 hparse
        have hpos := length_encodeOption delta o.value
        rw [List.length_append] at hn
        dsimp only
        rw [hsize, List.drop_left, ih (by omega)]
        constructor
        · rintro ⟨gaps, hgaps, rfl, hrest⟩
          refine ⟨(delta, o.value) :: gaps, ?_, ?_, hrest⟩
          · exact List.forall_mem_cons.2 ⟨⟨hdelta, hlength⟩, hgaps⟩
          · rw [encodeOptions_cons, List.append_assoc]
        · rintro ⟨gaps, hgaps, hopt, hrest⟩
          rcases gaps with _ | ⟨g, gaps⟩
          · rw [encodeOptions_nil, List.nil_append] at hopt
            exact absurd (hopt ▸ hrest) hend
          · obtain ⟨⟨hdelta', hlength'⟩, hgaps⟩ := List.forall_mem_cons.1 hgaps
            rw [encodeOptions_cons, List.append_assoc] at hopt
            -- reading tells how long the option is
            have hparse' := coapOptParse_encodeOption past hdelta' hlength' (encodeOptions gaps ++ rest)
            rw [← hopt, hparse] at hparse'
            have hsize' : o.size = (encodeOption g.1 g.2).length :=
              congrArg ParsedOption.size (Option.some.inj hparse')
            refine ⟨gaps, hgaps, ?_, hrest⟩
            calc tail = (encodeOption delta o.value ++ tail).drop o.size := by
                  rw [hsize, List.drop_left]
              _ = encodeOptions gaps ++ rest := by rw [hopt, hsize', List.drop_left]

/-- The parts of the first byte. -/
theorem byte_parts (b : Byte) :
    b.toNat >>> 6 < 4 ∧ b.toNat >>> 4 &&& 0x03 < 4 ∧
      UInt8.ofNat (64 * (b.toNat >>> 6) + 16 * (b.toNat >>> 4 &&& 0x03) + (b.toNat &&& 0x0f)) = b := by
  have hb : b.toNat < 256 := b.toNat_lt
  rw [Nat.shiftRight_eq_div_pow, Nat.shiftRight_eq_div_pow, show 0x03 = 2 ^ 2 - 1 from rfl,
    show 0x0f = 2 ^ 4 - 1 from rfl, Nat.and_two_pow_sub_one_eq_mod, Nat.and_two_pow_sub_one_eq_mod]
  refine ⟨by omega, by omega, ?_⟩
  rw [show 64 * (b.toNat / 2 ^ 6) + 16 * (b.toNat / 2 ^ 4 % 2 ^ 2) + b.toNat % 2 ^ 4 = b.toNat by
    omega, UInt8.ofNat_toNat]

theorem parts_byte {v t n : ℕ} (hv : v < 4) (ht : t < 4) (hn : n < 16) :
    (UInt8.ofNat (64 * v + 16 * t + n)).toNat >>> 6 = v ∧
      (UInt8.ofNat (64 * v + 16 * t + n)).toNat >>> 4 &&& 0x03 = t ∧
      (UInt8.ofNat (64 * v + 16 * t + n)).toNat &&& 0x0f = n := by
  rw [UInt8.toNat_ofNat', Nat.mod_eq_of_lt (by omega), Nat.shiftRight_eq_div_pow,
    Nat.shiftRight_eq_div_pow, show 0x03 = 2 ^ 2 - 1 from rfl, show 0x0f = 2 ^ 4 - 1 from rfl,
    Nat.and_two_pow_sub_one_eq_mod, Nat.and_two_pow_sub_one_eq_mod]
  omega

/-- What follows the options is the payload with its marker, or nothing. -/
theorem atEnd_iff {rest : List Byte} :
    AtEnd rest ∧ rest ≠ [coapPayloadStart] ↔ ∃ payload, rest = encodePayload payload := by
  constructor
  · rintro ⟨rfl | hhead, hne⟩
    · exact ⟨[], rfl⟩
    · rcases rest with _ | ⟨b, payload⟩
      · cases hhead
      · cases hhead
        refine ⟨payload, ?_⟩
        rw [encodePayload, if_neg]
        rintro rfl
        exact hne rfl
  · rintro ⟨payload, rfl⟩
    refine ⟨atEnd_encodePayload payload, ?_⟩
    rw [encodePayload]
    split_ifs with h
    · exact (List.cons_ne_nil _ _).symm
    · exact fun heq => h (List.cons.inj heq).2

/-- What is accepted is what the format makes of a message, and the buffer holds that message
    then. -/
theorem exists_message_of_coapPduParse {data : List Byte} {pdu pdu' : CoapPdu}
    (h : coapPduParse past data pdu = some pdu') :
    data.length ≤ pdu.maxSize ∧ ∃ m : WireMessage, m.bytes = data ∧ pdu' = m.toPdu pdu := by
  rw [coapPduParse.eq_def] at h
  split_ifs at h with hsize
  refine ⟨not_lt.1 hsize, ?_⟩
  rcases data with _ | ⟨b₀, _ | ⟨b₁, _ | ⟨b₂, _ | ⟨b₃, rest⟩⟩⟩⟩ <;> dsimp only at h
  iterate 4 cases h
  obtain ⟨hversion, htype, hbyte⟩ := byte_parts b₀
  generalize hn : b₀.toNat &&& 0x0f = n at h hbyte
  split_ifs at h with hempty htoken
  rw [not_or, not_lt, not_lt] at htoken
  obtain ⟨hlen, hn8⟩ := htoken
  simp only [List.length_cons, coapHdrSize] at hlen hempty
  have htake : (rest.take n).length = n := List.length_take_of_le (by omega)
  rcases hopts : parseOptions past ((rest.drop n).length + 1) (rest.drop n) with _ | tail <;>
    rw [hopts] at h
  · cases h
  obtain ⟨gaps, hgaps, hbody, hend⟩ := (parseOptions_iff (Nat.lt_succ_self _)).1 hopts
  -- the last byte of a message is not the marker
  have hne : tail ≠ [coapPayloadStart] := by
    rintro rfl
    cases h
  obtain ⟨payload, rfl⟩ := atEnd_iff.1 ⟨hend, hne⟩
  have hm : ∃ m : WireMessage, m.version = b₀.toNat >>> 6 ∧ m.type = b₀.toNat >>> 4 &&& 0x03 ∧
      m.code = b₁ ∧ m.id = (b₂, b₃) ∧ m.token = rest.take n ∧ m.gaps = gaps ∧
      m.payload = payload := by
    refine ⟨⟨_, _, b₁, (b₂, b₃), rest.take n, gaps, payload, hversion, htype,
      htake.trans_le hn8, hgaps, fun h0 => ?_⟩, rfl, rfl, rfl, rfl, rfl, rfl, rfl⟩
    -- an empty message has no room for anything
    have hrest : rest = [] := by
      by_contra hne
      refine hempty ⟨h0, .inl fun hlen => hne (List.length_eq_zero_iff.1 (by omega))⟩
    rw [hrest, List.drop_nil] at hbody
    obtain ⟨hopts, hpay⟩ := List.append_eq_nil_iff.1 hbody.symm
    refine ⟨by rw [hrest, List.take_nil], ?_, ?_⟩
    · rcases gaps with _ | ⟨g, gaps⟩
      · rfl
      · have hlen := length_encodeOption g.1 g.2
        rw [encodeOptions_cons] at hopts
        rw [(List.append_eq_nil_iff.1 hopts).1] at hlen
        exact absurd hlen (lt_irrefl _)
    · by_contra hpay0
      rw [encodePayload, if_neg hpay0] at hpay
      cases hpay
  obtain ⟨m, hv, ht, hc, hi, hk, hg, hp⟩ := hm
  have hmbody : m.body = rest.drop n := by rw [WireMessage.body, hg, hp, hbody]
  refine ⟨m, ?_, ?_⟩
  · rw [WireMessage.bytes, hv, ht, hc, hi, hk, hmbody, htake, hbyte, List.take_append_drop]
  · rw [WireMessage.toPdu, hv, ht, hc, hi, hk, hmbody, hp]
    by_cases hpay : payload = []
    · rw [hpay, encodePayload, if_pos rfl] at h
      rw [if_pos hpay]
      exact (Option.some.inj h).symm
    · rw [encodePayload, if_neg hpay] at h
      obtain ⟨b, payload, rfl⟩ := List.exists_cons_of_ne_nil hpay
      rw [if_neg hpay]
      exact (Option.some.inj h).symm

/-- What the format makes of a message is accepted, if there is room for it. -/
theorem coapPduParse_bytes {pdu : CoapPdu} (m : WireMessage)
    (hsize : m.bytes.length ≤ pdu.maxSize) :
    coapPduParse past m.bytes pdu = some (m.toPdu pdu) := by
  rw [coapPduParse.eq_def, if_neg (not_lt.2 hsize)]
  obtain ⟨hversion, htype, hn⟩ := parts_byte m.version_lt m.type_lt
    (m.token_le.trans_lt (by norm_num))
  rw [WireMessage.bytes]
  dsimp only
  rw [hn, hversion, htype, List.take_left, List.drop_left]
  simp only [List.length_cons, List.length_append, coapHdrSize]
  rw [if_neg, if_neg]
  · have hopts : parseOptions past (m.body.length + 1) m.body =
        some (encodePayload m.payload) :=
      (parseOptions_iff (Nat.lt_succ_self _)).2
        ⟨m.gaps, m.encodable, rfl, atEnd_encodePayload m.payload⟩
    rw [hopts, WireMessage.toPdu]
    by_cases hpay : m.payload = []
    · rw [hpay, encodePayload, if_pos rfl, if_pos rfl]
    · obtain ⟨b, payload, hcons⟩ := List.exists_cons_of_ne_nil hpay
      rw [if_neg hpay, encodePayload, if_neg hpay, hcons]
  · rw [not_or, not_lt, not_lt]
    exact ⟨by omega, m.token_le⟩
  · rintro ⟨h0, hlong⟩
    obtain ⟨htoken, hgaps, hpay⟩ := m.empty h0
    rw [htoken, WireMessage.body, hgaps, hpay] at hlong
    simp [encodePayload] at hlong

/-- A datagram is accepted if and only if it is what the format makes of a message, and the buffer
    holds that message then. -/
theorem coapPduParse_iff {data : List Byte} {pdu pdu' : CoapPdu} :
    coapPduParse past data pdu = some pdu' ↔
      data.length ≤ pdu.maxSize ∧ ∃ m : WireMessage, m.bytes = data ∧ pdu' = m.toPdu pdu := by
  refine ⟨exists_message_of_coapPduParse, ?_⟩
  rintro ⟨hsize, m, rfl, rfl⟩
  exact coapPduParse_bytes m hsize

/-! ## The options of an accepted message -/

theorem numbered_eq (t : ℕ) (gaps : List (ℕ × List Byte)) :
    numbered (t % 2 ^ 16) gaps =
      (absolute t gaps).map fun x => (⟨x.1 % 2 ^ 16, x.2⟩ : CoapOption) := by
  induction gaps generalizing t with
  | nil => rfl
  | cons g gaps ih =>
    rw [numbered, absolute, List.map_cons, Nat.mod_add_mod, ← ih]

/-- How many bytes extend a number is told by its half of the first byte. -/
theorem length_encodeNumber (n : ℕ) :
    (encodeNumber n).2.length =
      if (encodeNumber n).1 = 14 then 2 else if (encodeNumber n).1 = 13 then 1 else 0 := by
  rw [encodeNumber]
  split_ifs with h13 h269 h h <;> first | rfl | (dsimp only at *; omega)

theorem byte_high {n m : ℕ} (hn : n < 16) (hm : m < 16) :
    (UInt8.ofNat (16 * n + m)).toNat &&& 0xf0 = 16 * n := by
  have hall : ∀ n m : Fin 16, (UInt8.ofNat (16 * n.val + m.val)).toNat &&& 0xf0 = 16 * n.val := by
    decide
  exact hall ⟨n, hn⟩ ⟨m, hm⟩

/-- The length that is read after the half byte. -/
theorem optLength_encodeNumber {n : ℕ} (hn : n < 2 ^ 16) (rest : List Byte) :
    (match (encodeNumber n).1 with
      | 15 => 0
      | 14 =>
        ((byteAt past ((encodeNumber n).2 ++ rest) <<< 8 + 269) % 2 ^ 16 +
          byteAt past (((encodeNumber n).2 ++ rest).drop 1)) % 2 ^ 16
      | 13 => 13 + byteAt past ((encodeNumber n).2 ++ rest)
      | n => n) = n := by
  rw [encodeNumber]
  split_ifs with h13 h269
  · dsimp only
    split <;> omega
  · change 13 + (UInt8.ofNat (n - 13)).toNat = n
    rw [UInt8.toNat_ofNat', Nat.mod_eq_of_lt (by omega)]
    omega
  · change ((((UInt8.ofNat ((n - 269) / 2 ^ 8)).toNat <<< 8 + 269) % 2 ^ 16) +
      (UInt8.ofNat (n - 269)).toNat) % 2 ^ 16 = n
    rw [UInt8.toNat_ofNat', UInt8.toNat_ofNat', Nat.shiftLeft_eq]
    omega

/-- The accessors of an option find its value from its first byte on, and its length, which is also
    told by the half of the first byte. -/
theorem accessors_encodeOption {delta : ℕ} {value : List Byte} (hlength : value.length < 2 ^ 16)
    (rest : List Byte) :
    coapOptValue past (encodeOption delta value ++ rest) = some (value ++ rest) ∧
      coapOptLength past (encodeOption delta value ++ rest) = value.length ∧
      byteAt past (encodeOption delta value ++ rest) &&& 0x0f = (encodeNumber value.length).1 := by
  have hn := encodeNumber_fst_lt delta
  have hm := encodeNumber_fst_lt value.length
  have hhigh := byte_high (n := (encodeNumber delta).1) (m := (encodeNumber value.length).1)
    (by omega) (by omega)
  have hlow := (@byte_halves (encodeNumber delta).1 (encodeNumber value.length).1 (by omega)
    (by omega)).2
  obtain ⟨b, hb⟩ : ∃ b, b = UInt8.ofNat (16 * (encodeNumber delta).1 +
    (encodeNumber value.length).1) := ⟨_, rfl⟩
  rw [← hb] at hhigh hlow
  have hopt : encodeOption delta value ++ rest =
      b :: ((encodeNumber delta).2 ++ ((encodeNumber value.length).2 ++ (value ++ rest))) := by
    rw [encodeOption, encodeHeader, ← hb]
    simp only [List.cons_append, List.append_assoc]
  have hbyte : byteAt past (encodeOption delta value ++ rest) = b.toNat := by rw [hopt]; rfl
  have hf0 : 16 * (encodeNumber delta).1 ≠ 0xf0 := by omega
  have he0 : 16 * (encodeNumber delta).1 = 0xe0 ↔ (encodeNumber delta).1 = 14 := by omega
  have hd0 : 16 * (encodeNumber delta).1 = 0xd0 ↔ (encodeNumber delta).1 = 13 := by omega
  have hdelta := length_encodeNumber delta
  have hvalue : coapOptValue past (encodeOption delta value ++ rest) = some (value ++ rest) := by
    rw [coapOptValue, hbyte, hhigh, hlow, if_neg hf0, if_neg (by omega)]
    simp only [he0, hd0]
    rw [← hdelta, ← length_encodeNumber, hopt, show 1 + (encodeNumber delta).2.length +
      (encodeNumber value.length).2.length = ((encodeNumber delta).2.length +
        (encodeNumber value.length).2.length) + 1 by omega, List.drop_succ_cons, ← List.drop_drop,
      List.drop_left, List.drop_left]
  have hlen : coapOptLength past (encodeOption delta value ++ rest) = value.length := by
    have hdrop : (encodeOption delta value ++ rest).drop
        (if (encodeNumber delta).1 = 14 then 3 else if (encodeNumber delta).1 = 13 then 2 else 1) =
          (encodeNumber value.length).2 ++ (value ++ rest) := by
      have hskip : (if (encodeNumber delta).1 = 14 then 3 else
          if (encodeNumber delta).1 = 13 then 2 else 1) = (encodeNumber delta).2.length + 1 := by
        rw [hdelta]
        split_ifs <;> rfl
      rw [hskip, hopt, List.drop_succ_cons, List.drop_left]
    rw [coapOptLength, hbyte, hhigh, hlow, if_neg hf0]
    simp only [he0, hd0]
    rw [hdrop]
    exact optLength_encodeNumber hlength _
  exact ⟨hvalue, hlen, by rw [hbyte, hlow]⟩

theorem coapOptValue_encodeOption {delta : ℕ} {value : List Byte} (hlength : value.length < 2 ^ 16)
    (rest : List Byte) :
    ((coapOptValue past (encodeOption delta value ++ rest)).getD []).take
      (coapOptLength past (encodeOption delta value ++ rest)) = value := by
  obtain ⟨hvalue, hlen, -⟩ := @accessors_encodeOption past delta value hlength rest
  rw [hvalue, hlen, Option.getD_some, List.take_left]

/-- No option is read at the end of the options. -/
theorem coapOptParse_atEnd {opt : List Byte} (h : AtEnd opt) : coapOptParse past opt = none := by
  rcases hparse : coapOptParse past opt with _ | o
  · rfl
  · obtain ⟨delta, rest, -, -, -, rfl, -⟩ := coapOptParse_iff.1 hparse
    rcases h with hnil | hhead
    · have hlen := length_encodeOption delta o.value
      rw [(List.append_eq_nil_iff.1 hnil).1] at hlen
      exact absurd hlen (lt_irrefl _)
    · exact absurd hhead (head_encodeOption _ _ _)

theorem size_of_coapOptParse {opt : List Byte} {o : ParsedOption}
    (h : coapOptParse past opt = some o) : 0 < o.size ∧ o.size ≤ opt.length := by
  obtain ⟨delta, rest, -, -, -, rfl, hsize⟩ := coapOptParse_iff.1 h
  rw [hsize, List.length_append]
  exact ⟨length_encodeOption _ _, Nat.le_add_right _ _⟩

theorem optionNextLoop_fuel {n n' : ℕ} {oi : OptIterator} (hn : oi.rest.length < n)
    (hn' : oi.rest.length < n') : optionNextLoop past n oi = optionNextLoop past n' oi := by
  induction n generalizing n' oi with
  | zero => exact absurd hn (Nat.not_lt_zero _)
  | succ n ih =>
    obtain ⟨n', rfl⟩ := Nat.exists_eq_succ_of_ne_zero (Nat.ne_of_gt (Nat.zero_lt_of_lt hn'))
    rw [optionNextLoop, optionNextLoop]
    rcases hparse : coapOptParse past oi.rest with _ | o
    · rfl
    · obtain ⟨hpos, hle⟩ := size_of_coapOptParse hparse
      have hlen := List.length_drop (l := oi.rest) (i := o.size)
      dsimp only
      split_ifs
      · rfl
      · exact ih (by dsimp only; omega) (by dsimp only; omega)

/-- The loop goes on as a new call does. -/
theorem optionNextLoop_eq {n : ℕ} {oi : OptIterator} (hn : oi.rest.length < n)
    (hgood : oi.bad = false) : optionNextLoop past n oi = coapOptionNext past oi := by
  rw [coapOptionNext]
  by_cases hend : AtEnd oi.rest
  · rw [if_pos (.inr hend)]
    obtain ⟨n, rfl⟩ := Nat.exists_eq_succ_of_ne_zero (Nat.ne_of_gt (Nat.zero_lt_of_lt hn))
    rw [optionNextLoop, coapOptParse_atEnd hend]
  · rw [if_neg]
    · exact optionNextLoop_fuel hn (Nat.lt_succ_self _)
    · rw [hgood]
      exact not_or.2 ⟨Bool.false_ne_true, hend⟩

/-- The next option is the first one, if the filter lets its number pass; the iterator is at the
    one after it then. -/
theorem coapOptionNext_encodeOptions {t : ℕ} {g : ℕ × List Byte} {gaps : List (ℕ × List Byte)}
    {rest : List Byte} {filter : Option OptFilter} (hg : Encodable g) :
    coapOptionNext past { rest := encodeOptions (g :: gaps) ++ rest, type := t, filter } =
      if OptIterator.Passes filter ((t + g.1) % 2 ^ 16) then
        some (encodeOption g.1 g.2 ++ (encodeOptions gaps ++ rest),
          { rest := encodeOptions gaps ++ rest, type := (t + g.1) % 2 ^ 16, filter })
      else coapOptionNext past
        { rest := encodeOptions gaps ++ rest, type := (t + g.1) % 2 ^ 16, filter } := by
  have hparse := coapOptParse_encodeOption past hg.1 hg.2 (encodeOptions gaps ++ rest)
  have hopt : encodeOptions (g :: gaps) ++ rest =
      encodeOption g.1 g.2 ++ (encodeOptions gaps ++ rest) := by
    rw [encodeOptions_cons, List.append_assoc]
  have hnumber : (t + g.1 % 2 ^ 16) % 2 ^ 16 = (t + g.1) % 2 ^ 16 := Nat.add_mod_mod _ _ _
  rw [← optionNextLoop_eq (Nat.lt_succ_self _) rfl, optionNextLoop]
  dsimp only
  rw [hopt, hparse]
  dsimp only
  rw [List.drop_left, hnumber]
  have hpos := length_encodeOption g.1 g.2
  exact if_congr Iff.rfl rfl (optionNextLoop_eq (by simp only [List.length_append]; omega) rfl)

/-- A loop over options goes through those with a number the filter lets pass. -/
theorem iterateFrom_eq {n t : ℕ} {gaps : List (ℕ × List Byte)} {rest : List Byte}
    {filter : Option OptFilter} (hn : gaps.length < n)
    (hgaps : ∀ g ∈ gaps, Encodable g ∧ g.2.length < 2 ^ 16) (hrest : AtEnd rest) :
    iterateFrom past n { rest := encodeOptions gaps ++ rest, type := t, filter } =
      (numbered t gaps).filter fun o => OptIterator.Passes filter o.type := by
  induction gaps generalizing n t with
  | nil =>
    obtain ⟨n, rfl⟩ := Nat.exists_eq_succ_of_ne_zero (Nat.ne_of_gt hn)
    rw [iterateFrom, coapOptionNext, if_pos (.inr hrest)]
    rfl
  | cons g gaps ih =>
    obtain ⟨⟨hg, hshort⟩, hgaps⟩ := List.forall_mem_cons.1 hgaps
    rw [List.length_cons] at hn
    obtain ⟨n, rfl⟩ := Nat.exists_eq_succ_of_ne_zero (Nat.ne_of_gt (Nat.zero_lt_of_lt hn))
    rw [numbered, List.filter_cons, iterateFrom, coapOptionNext_encodeOptions hg]
    dsimp only
    split_ifs with hpass
    · dsimp only
      rw [coapOptValue_encodeOption hshort, ih (Nat.lt_of_succ_lt_succ hn) hgaps]
    · rw [← ih (Nat.lt_of_succ_lt hn) hgaps, iterateFrom]

theorem length_le_encodeOptions (gaps : List (ℕ × List Byte)) :
    gaps.length ≤ (encodeOptions gaps).length ∧
      ∀ g ∈ gaps, g.2.length ≤ (encodeOptions gaps).length := by
  induction gaps with
  | nil => exact ⟨Nat.zero_le _, by simp⟩
  | cons g gaps ih =>
    have hpos := length_encodeOption g.1 g.2
    have hlen : g.2.length ≤ (encodeOption g.1 g.2).length := by
      rw [encodeOption, List.length_append]
      exact Nat.le_add_left _ _
    rw [encodeOptions_cons, List.length_append, List.length_cons]
    refine ⟨by omega, List.forall_mem_cons.2 ⟨by omega, fun g' hg' => ?_⟩⟩
    exact (ih.2 g' hg').trans (Nat.le_add_left _ _)

/-- Going through an accepted message gives the options the filter lets pass, in order, with
    numbers that are added up in 16 bits. -/
theorem iterate_eq {m : WireMessage} {pdu : CoapPdu} (hsize : m.bytes.length ≤ coapMaxPduSize)
    (filter : Option OptFilter) :
    (m.toPdu pdu).iterate past filter =
      ((absolute 0 m.gaps).map fun x => (⟨x.1 % 2 ^ 16, x.2⟩ : CoapOption)).filter fun o =>
        OptIterator.Passes filter o.type := by
  have hlen : (encodeOptions m.gaps).length ≤ m.body.length := by
    rw [WireMessage.body, List.length_append]
    exact Nat.le_add_right _ _
  have hbody : m.body.length ≤ coapMaxPduSize := by
    rw [WireMessage.bytes] at hsize
    simp only [List.length_cons, List.length_append] at hsize
    omega
  have hgaps := length_le_encodeOptions m.gaps
  have heq : (m.toPdu pdu).body = m.body := rfl
  rw [← numbered_eq, Nat.zero_mod, CoapPdu.iterate, coapOptionIteratorInit, heq]
  by_cases hnil : m.body = []
  · have hnone : m.gaps = [] := List.eq_nil_of_length_eq_zero (by rw [hnil] at hlen; simp_all)
    rw [if_pos hnil, hnone, iterateFrom, coapOptionNext, if_pos (.inl rfl)]
    rfl
  · rw [if_neg hnil]
    refine iterateFrom_eq (by omega) (fun g hg => ⟨m.encodable g hg, ?_⟩)
      (atEnd_encodePayload m.payload)
    have hg := hgaps.2 g hg
    rw [coapMaxPduSize] at hbody
    omega

/-- Going through all options of an accepted message. -/
theorem iterate_none {m : WireMessage} {pdu : CoapPdu} (hsize : m.bytes.length ≤ coapMaxPduSize) :
    (m.toPdu pdu).iterate past none =
      (absolute 0 m.gaps).map fun x => (⟨x.1 % 2 ^ 16, x.2⟩ : CoapOption) := by
  rw [iterate_eq hsize]
  exact List.filter_eq_self.2 fun _ _ => rfl

end

end CoapBroker
