import CoapBroker.Libcoap.Message

/-!
# Sending and receiving

A message that is put together with the functions of libcoap, and received by a program that uses
it too.

* `wire_round_trip_iff`: what is received is what was sent (the header, the token, the options
  that were not refused, and the payload), exactly if no option is 269 above the one before or has
  a value of 269 bytes. (A message with the code of an empty one must be empty.)
* `numbers_delivered_iff`: the numbers of the options of an accepted message are those of the
  format exactly if the last one is a 16-bit number; otherwise they wrap around, unnoticed.
* `coapCheckOption_eq`: looking for an option finds the first one of its number.
-/

namespace CoapBroker

/-! ## Options as they are added -/

/-- Adding some options: the message, and the options that were not refused. -/
def addOptions (pdu : CoapPdu) : List CoapOption → CoapPdu × List CoapOption
  | [] => (pdu, [])
  | o :: os =>
    let (pdu', size) := coapAddOption pdu o.type o.value
    let (pdu'', accepted) := addOptions pdu' os
    (pdu'', if size = 0 then accepted else o :: accepted)

/-- The differences of the numbers of some options, after the number `base`. -/
def gapsFrom (base : ℕ) (os : List CoapOption) : List (ℕ × List Byte) :=
  relative base (os.map fun o => (o.type, o.value))

/-- What is written for some options, after one of number `base`. -/
def writtenOptions (base : ℕ) (os : List CoapOption) : List Byte :=
  (gapsFrom base os).flatMap fun g => writtenOption g.1 g.2

/-- An option whose difference and length are written as the format has them. -/
def WrittenRight (g : ℕ × List Byte) : Prop := g.1 ≠ 269 ∧ g.2.length ≠ 269

instance (g : ℕ × List Byte) : Decidable (WrittenRight g) :=
  inferInstanceAs (Decidable (g.1 ≠ 269 ∧ g.2.length ≠ 269))

theorem gapsFrom_cons (base : ℕ) (o : CoapOption) (os : List CoapOption) :
    gapsFrom base (o :: os) = (o.type - base, o.value) :: gapsFrom o.type os := rfl

theorem writtenOptions_cons (base : ℕ) (o : CoapOption) (os : List CoapOption) :
    writtenOptions base (o :: os) =
      writtenOption (o.type - base) o.value ++ writtenOptions o.type os := rfl

/-! ## Adding -/

theorem coapOptEncode_eq_none {maxlen delta : ℕ} {val : List Byte} (h : maxlen < val.length) :
    coapOptEncode maxlen delta val = none := by
  rw [coapOptEncode]
  rcases coapOptSetheader maxlen delta val.length with _ | header
  · rfl
  · simp only [Option.bind_eq_bind, Option.bind_some]
    rw [if_pos (by omega)]

theorem length_writtenOption {delta : ℕ} {value : List Byte} (hdelta : delta < 13)
    (hvalue : value.length < 13) : (writtenOption delta value).length = 1 + value.length := by
  have hnum : ∀ n, n < 13 → (encodeNumber (writtenNumber n)).2 = [] := fun n hn => by
    rw [writtenNumber, if_neg (by omega), encodeNumber, if_pos hn]
  rw [writtenOption, encodeHeader, hnum _ hdelta, hnum _ hvalue]
  simp only [List.cons_append, List.nil_append, List.length_cons]
  omega

theorem writtenOption_pos (delta : ℕ) (value : List Byte) :
    0 < (writtenOption delta value).length := by
  rw [writtenOption, encodeHeader, List.cons_append, List.length_cons]
  exact Nat.succ_pos _

theorem length_le_writtenOption (delta : ℕ) (value : List Byte) :
    value.length ≤ (writtenOption delta value).length := by
  rw [writtenOption, List.length_append]
  exact Nat.le_add_left _ _

/-- An option that is in order and fits is added. -/
theorem coapAddOption_eq {pdu : CoapPdu} {type : ℕ} {data : List Byte}
    (hmax : pdu.maxSize ≤ coapMaxPduSize) (htype : type < 2 ^ 16) (horder : pdu.maxDelta ≤ type)
    (hfits : pdu.length + (writtenOption (type - pdu.maxDelta) data).length ≤ pdu.maxSize) :
    coapAddOption pdu type data =
      ({ pdu with
          body := pdu.body ++ writtenOption (type - pdu.maxDelta) data, maxDelta := type
          data := none }, (writtenOption (type - pdu.maxDelta) data).length) := by
  have hdata := length_le_writtenOption (type - pdu.maxDelta) data
  have hlen : CoapPdu.length { pdu with data := none } = pdu.length := rfl
  rw [coapMaxPduSize] at hmax
  rw [coapAddOption]
  dsimp only
  rw [if_neg (not_lt.2 horder), hlen, coapOptEncode_eq (by omega) (by omega), if_neg (by omega)]

/-- Adding an option appends what is written for it, unless it is out of order or does not
    fit. -/
theorem coapAddOption_cases {pdu : CoapPdu} {type : ℕ} {data : List Byte}
    (hmax : pdu.maxSize ≤ coapMaxPduSize) (htype : type < 2 ^ 16) :
    coapAddOption pdu type data = ({ pdu with data := none }, 0) ∨
      (pdu.maxDelta ≤ type ∧
        pdu.length + (writtenOption (type - pdu.maxDelta) data).length ≤ pdu.maxSize ∧
        data.length ≤ coapMaxPduSize ∧
        0 < (writtenOption (type - pdu.maxDelta) data).length ∧
        coapAddOption pdu type data =
          ({ pdu with
              body := pdu.body ++ writtenOption (type - pdu.maxDelta) data, maxDelta := type
              data := none }, (writtenOption (type - pdu.maxDelta) data).length)) := by
  have hdata := length_le_writtenOption (type - pdu.maxDelta) data
  have hpos := writtenOption_pos (type - pdu.maxDelta) data
  by_cases horder : type < pdu.maxDelta
  · rw [coapAddOption]
    exact .inl (if_pos horder)
  by_cases hfits : pdu.length + (writtenOption (type - pdu.maxDelta) data).length ≤ pdu.maxSize
  · exact .inr ⟨not_lt.1 horder, hfits, by omega, hpos,
      coapAddOption_eq hmax htype (not_lt.1 horder) hfits⟩
  -- it does not fit, perhaps because its value alone is too long
  have hlen : CoapPdu.length { pdu with data := none } = pdu.length := rfl
  rw [coapMaxPduSize] at hmax
  rw [coapAddOption]
  dsimp only
  rw [if_neg horder, hlen]
  by_cases hlong : pdu.maxSize - pdu.length < data.length
  · rw [coapOptEncode_eq_none hlong]
    exact .inl rfl
  · rw [coapOptEncode_eq (by omega) (by omega), if_pos (by omega)]
    exact .inl rfl

/-- Adding options appends what is written for those that are not refused, and changes nothing of
    what comes before them. -/
theorem addOptions_spec {pdu : CoapPdu} {os : List CoapOption}
    (hmax : pdu.maxSize ≤ coapMaxPduSize) (hroom : pdu.length ≤ pdu.maxSize)
    (hos : ∀ o ∈ os, o.type < 2 ^ 16) (hdata : pdu.data = none) :
    let r := addOptions pdu os
    r.1 = { pdu with
      body := pdu.body ++ writtenOptions pdu.maxDelta r.2
      maxDelta := lastNumber pdu.maxDelta (r.2.map fun o => (o.type, o.value)) } ∧
    AscendingFrom pdu.maxDelta (r.2.map fun o => (o.type, o.value)) ∧
    r.1.length ≤ r.1.maxSize ∧ r.2.Sublist os := by
  induction os generalizing pdu with
  | nil =>
    refine ⟨?_, trivial, hroom, List.Sublist.refl _⟩
    change pdu = { pdu with body := pdu.body ++ [], maxDelta := pdu.maxDelta }
    rw [List.append_nil]
  | cons o os ih =>
    obtain ⟨htype, hos⟩ := List.forall_mem_cons.1 hos
    dsimp only at ih ⊢
    rw [addOptions]
    have hsame : { pdu with data := none } = pdu := by rw [← hdata]
    -- an option that is refused leaves no trace
    rcases @coapAddOption_cases pdu o.type o.value hmax htype with
      hrefused | ⟨horder, hfits, -, hpos, hadded⟩
    · rw [hrefused, hsame]
      obtain ⟨h₁, h₂, h₃, h₄⟩ := ih hmax hroom hos hdata
      exact ⟨h₁, h₂, h₃, h₄.cons o⟩
    · rw [hadded]
      dsimp only
      rw [if_neg (Nat.ne_of_gt hpos)]
      have hlen : CoapPdu.length { pdu with
          body := pdu.body ++ writtenOption (o.type - pdu.maxDelta) o.value, maxDelta := o.type
          data := none } = pdu.length + (writtenOption (o.type - pdu.maxDelta) o.value).length := by
        simp only [CoapPdu.length, List.length_append]
        omega
      obtain ⟨h₁, h₂, h₃, h₄⟩ := @ih { pdu with
          body := pdu.body ++ writtenOption (o.type - pdu.maxDelta) o.value, maxDelta := o.type
          data := none } hmax (by rw [hlen]; exact hfits) hos rfl
      refine ⟨?_, ⟨horder, h₂⟩, h₃, h₄.cons_cons o⟩
      rw [h₁, List.append_assoc, writtenOptions_cons, List.map_cons, lastNumber]
      dsimp only
      rw [hdata]

/-- Options that are in order and fit are all added. -/
theorem addOptions_eq {pdu : CoapPdu} {os : List CoapOption}
    (hmax : pdu.maxSize ≤ coapMaxPduSize) (hos : ∀ o ∈ os, o.type < 2 ^ 16)
    (hasc : AscendingFrom pdu.maxDelta (os.map fun o => (o.type, o.value)))
    (hfits : pdu.length + (writtenOptions pdu.maxDelta os).length ≤ pdu.maxSize) :
    (addOptions pdu os).2 = os := by
  induction os generalizing pdu with
  | nil => rfl
  | cons o os ih =>
    obtain ⟨htype, hos⟩ := List.forall_mem_cons.1 hos
    obtain ⟨horder, hasc⟩ := hasc
    rw [writtenOptions_cons, List.length_append] at hfits
    rw [addOptions, coapAddOption_eq hmax htype horder (by omega)]
    dsimp only
    rw [if_neg (Nat.ne_of_gt (writtenOption_pos _ _))]
    refine congrArg (o :: ·) (@ih { pdu with
        body := pdu.body ++ writtenOption (o.type - pdu.maxDelta) o.value, maxDelta := o.type
        data := none } hmax hos hasc ?_)
    simp only [CoapPdu.length, List.length_append] at hfits ⊢
    omega

/-! ## Writing right, reading right -/

section

variable {base : ℕ} {os : List CoapOption} {gaps : List (ℕ × List Byte)}

theorem mem_gapsFrom {g : ℕ × List Byte} (h : g ∈ gapsFrom base os) :
    ∃ o ∈ os, g.1 ≤ o.type ∧ g.2 = o.value := by
  induction os generalizing base with
  | nil => exact absurd h List.not_mem_nil
  | cons o os ih =>
    rcases List.mem_cons.1 h with rfl | h
    · exact ⟨o, List.mem_cons_self, Nat.sub_le _ _, rfl⟩
    · obtain ⟨o', ho', hg⟩ := ih h
      exact ⟨o', List.mem_cons_of_mem _ ho', hg⟩

/-- Options that are written right are written as the format has them. -/
theorem writtenOptions_eq (h : ∀ g ∈ gapsFrom base os, WrittenRight g) :
    writtenOptions base os = encodeOptions (gapsFrom base os) := by
  rw [writtenOptions, encodeOptions]
  exact List.flatMap_congr fun g hg => writtenOption_eq (h g hg).1 (h g hg).2

/-- The options are those with the differences of their numbers. -/
theorem numbered_gapsFrom (hasc : AscendingFrom 0 (os.map fun o => (o.type, o.value)))
    (hos : ∀ o ∈ os, o.type < 2 ^ 16) : numbered 0 (gapsFrom 0 os) = os := by
  have hnumbered : numbered 0 (gapsFrom 0 os) =
      (absolute 0 (gapsFrom 0 os)).map fun x => (⟨x.1 % 2 ^ 16, x.2⟩ : CoapOption) :=
        numbered_eq 0 _
  rw [hnumbered, gapsFrom, absolute_relative hasc, List.map_map]
  refine (List.map_congr_left fun o ho => ?_).trans (List.map_id os)
  rw [Function.comp_apply, Nat.mod_eq_of_lt (hos o ho)]
  rfl

/-- If the options that are read are those that were written, then they were written right. -/
theorem writtenRight_of_read {tail rest : List Byte} (hbase : base < 2 ^ 16)
    (hasc : AscendingFrom base (os.map fun o => (o.type, o.value)))
    (hos : ∀ o ∈ os, o.type < 2 ^ 16 ∧ o.value.length ≤ coapMaxPduSize)
    (hgaps : ∀ g ∈ gaps, Encodable g)
    (hbytes : writtenOptions base os ++ tail = encodeOptions gaps ++ rest)
    (hread : numbered base gaps = os) : ∀ g ∈ gapsFrom base os, WrittenRight g := by
  induction os generalizing base gaps with
  | nil => exact fun g hg => absurd hg List.not_mem_nil
  | cons o os ih =>
    rcases gaps with _ | ⟨g, gaps⟩
    · cases hread
    obtain ⟨hle, hasc⟩ := hasc
    obtain ⟨⟨hlt, hlen⟩, hos⟩ := List.forall_mem_cons.1 hos
    obtain ⟨⟨hdelta, hlength⟩, hgaps⟩ := List.forall_mem_cons.1 hgaps
    rw [numbered] at hread
    obtain ⟨hfirst, hread⟩ := List.cons.inj hread
    have htype : (base + g.1) % 2 ^ 16 = o.type := congrArg CoapOption.type hfirst
    have hvalue : g.2 = o.value := congrArg CoapOption.value hfirst
    rw [writtenOptions_cons, encodeOptions_cons, List.append_assoc, List.append_assoc] at hbytes
    rw [coapMaxPduSize] at hlen
    -- what is read first is what was written first
    have hparse := coapOptParse_encodeOption 0 hdelta hlength (encodeOptions gaps ++ rest)
    obtain ⟨size, hparse'⟩ := @coapOptParse_writtenOption 0 (o.type - base) o.value (by omega)
      (by omega) (writtenOptions o.type os ++ tail)
    rw [hbytes, hparse] at hparse'
    have hd := congrArg ParsedOption.delta (Option.some.inj hparse')
    have hv := congrArg ParsedOption.value (Option.some.inj hparse')
    dsimp only at hd hv
    have hright : WrittenRight (o.type - base, o.value) := by
      constructor
      · intro h269
        dsimp only at h269
        rw [h269, writtenNumber, if_pos rfl] at hd
        omega
      · intro h269
        dsimp only at h269
        rw [h269, writtenNumber, if_pos rfl, hvalue] at hv
        have := congrArg List.length hv
        rw [List.length_take, h269] at this
        exact absurd this (by norm_num)
    rw [writtenOption_eq hright.1 hright.2] at hbytes
    have hparse'' := @coapOptParse_encodeOption 0 (o.type - base) o.value (by omega) (by omega)
      (writtenOptions o.type os ++ tail)
    rw [hbytes, hparse] at hparse''
    have hsize := congrArg ParsedOption.size (Option.some.inj hparse'')
    dsimp only at hsize
    have hrest : writtenOptions o.type os ++ tail = encodeOptions gaps ++ rest :=
      (List.append_inj hbytes hsize.symm).2
    rw [htype] at hread
    exact List.forall_mem_cons.2 ⟨hright, ih hlt hasc hos hgaps hrest hread⟩

theorem length_le_writtenOptions (base : ℕ) (os : List CoapOption) :
    ∀ o ∈ os, o.value.length ≤ (writtenOptions base os).length := by
  induction os generalizing base with
  | nil => exact fun o ho => absurd ho List.not_mem_nil
  | cons o os ih =>
    rw [writtenOptions_cons, writtenOption, List.length_append, List.length_append]
    refine List.forall_mem_cons.2 ⟨by omega, fun o' ho' => ?_⟩
    exact (ih o.type o' ho').trans (Nat.le_add_left _ _)

/-- The payload of an accepted message. -/
theorem coapGetData_toPdu (m : WireMessage) (pdu : CoapPdu) :
    coapGetData (m.toPdu pdu) = if m.payload = [] then none else some m.payload := by
  rw [coapGetData, WireMessage.toPdu]
  dsimp only
  split_ifs with h
  · rfl
  · rw [Option.map_some, WireMessage.body, encodePayload, if_neg h]
    congr 1
    have hsplit : encodeOptions m.gaps ++ coapPayloadStart :: m.payload =
        (encodeOptions m.gaps ++ [coapPayloadStart]) ++ m.payload := by
      rw [List.append_assoc, List.singleton_append]
    have hlen : (encodeOptions m.gaps ++ [coapPayloadStart] ++ m.payload).length - m.payload.length =
        (encodeOptions m.gaps ++ [coapPayloadStart]).length := by
      rw [@List.length_append _ _ m.payload, Nat.add_sub_cancel]
    rw [hsplit, hlen, List.drop_left]

end

/-! ## The round trip -/

section

variable {past : Byte} {type code size : ℕ} {id : Byte × Byte} {token payload : List Byte}
  {os : List CoapOption} {pdu₀ pdu₁ pdu : CoapPdu} {added : Bool}

/-- The payload of a message that was put together: none when it was refused, or empty. -/
def payloadAdded (added : Bool) (payload : List Byte) : List Byte := if added then payload else []

/-- Adding data appends it with its marker, unless it is empty or does not fit. -/
theorem coapAddData_spec {pdu' : CoapPdu} (hroom : pdu.length ≤ pdu.maxSize)
    (h : coapAddData pdu payload = .ok (pdu', added)) :
    ∃ data, pdu' = { pdu with
        body := pdu.body ++ encodePayload (payloadAdded added payload), data } ∧
      pdu'.length ≤ pdu'.maxSize := by
  rw [coapAddData] at h
  by_cases hdata : pdu.data.isSome
  · rw [if_pos hdata] at h
    cases h
  rw [if_neg hdata] at h
  by_cases hnil : payload.length = 0
  · rw [if_pos hnil] at h
    cases h
    rw [List.length_eq_zero_iff.1 hnil]
    refine ⟨pdu.data, ?_, hroom⟩
    rw [payloadAdded, if_pos rfl, encodePayload, if_pos rfl, List.append_nil]
  rw [if_neg hnil] at h
  by_cases hfits : pdu.maxSize < pdu.length + payload.length + 1
  · rw [if_pos hfits] at h
    cases h
    refine ⟨pdu.data, ?_, hroom⟩
    rw [payloadAdded, if_neg Bool.false_ne_true, encodePayload, if_pos rfl, List.append_nil]
  · rw [if_neg hfits] at h
    cases h
    have hne : payload ≠ [] := fun h => hnil (by rw [h]; rfl)
    refine ⟨_, by rw [payloadAdded, if_pos rfl, encodePayload, if_neg hne], ?_⟩
    simp only [CoapPdu.length, List.length_append, List.length_cons] at hfits ⊢
    omega

/-- A message after its options and its data have been added. -/
theorem message_spec (hinit : coapPduInit type code id size = .ok (some pdu₀))
    (htoken : coapAddToken pdu₀ token = some pdu₁) (hos : ∀ o ∈ os, o.type < 2 ^ 16)
    (hdata : coapAddData (addOptions pdu₁ os).1 payload = .ok (pdu, added)) :
    pdu.version = 1 ∧ pdu.type = type % 4 ∧ pdu.code = code % 2 ^ 8 ∧ pdu.id = id ∧
      pdu.token = token ∧ token.length ≤ 8 ∧
      pdu.body = writtenOptions 0 (addOptions pdu₁ os).2 ++
        encodePayload (payloadAdded added payload) ∧
      pdu.length ≤ coapMaxPduSize ∧
      AscendingFrom 0 ((addOptions pdu₁ os).2.map fun o => (o.type, o.value)) ∧
      (addOptions pdu₁ os).2.Sublist os := by
  rw [coapPduInit] at hinit
  split_ifs at hinit with hmax hmin
  · cases hinit
  obtain rfl := Option.some.inj (Except.ok.inj hinit)
  rw [coapAddToken] at htoken
  split_ifs at htoken with hrefused
  obtain rfl := Option.some.inj htoken
  rw [not_or, not_lt, not_lt] at hrefused
  obtain ⟨htoken, hroom⟩ := hrefused
  change token.length + 4 ≤ size at hroom
  obtain ⟨h₁, h₂, h₃, h₄⟩ := @addOptions_spec
    ⟨size, coapDefaultVersion, type % 4, code % 2 ^ 8, id, token, [], 0, none⟩ os (not_lt.1 hmax)
    (by simp only [CoapPdu.length, coapHdrSize, List.length_nil]; omega) hos rfl
  obtain ⟨data, hpdu, hlen⟩ := coapAddData_spec h₃ hdata
  rw [List.nil_append] at h₁
  rw [h₁] at hpdu
  rw [hpdu] at hlen ⊢
  exact ⟨rfl, rfl, rfl, rfl, rfl, htoken, rfl, hlen.trans (not_lt.1 hmax), h₂, h₄⟩

theorem CoapPdu.bytes_eq {pdu : CoapPdu} (hversion : pdu.version = 1) (htype : pdu.type < 4)
    (htoken : pdu.token.length ≤ 8) :
    pdu.bytes = UInt8.ofNat (64 * 1 + 16 * pdu.type + pdu.token.length) :: UInt8.ofNat pdu.code ::
      pdu.id.1 :: pdu.id.2 :: (pdu.token ++ pdu.body) := by
  have hall : ∀ t : Fin 4, ∀ n : Fin 9,
      1 <<< 6 ||| t.val <<< 4 ||| n.val = 64 * 1 + 16 * t.val + n.val := by
    decide
  rw [CoapPdu.bytes, hversion]
  rw [hall ⟨pdu.type, htype⟩ ⟨pdu.token.length, by omega⟩]

theorem CoapPdu.length_bytes (pdu : CoapPdu) : pdu.bytes.length = pdu.length := by
  simp only [CoapPdu.bytes, CoapPdu.length, List.length_cons, List.length_append, coapHdrSize]
  omega

/-- The message `pdu` is received, into a buffer of its length, as one with this header, token,
    options and payload. -/
def Received (past : Byte) (pdu : CoapPdu) (type code : ℕ) (id : Byte × Byte)
    (token : List Byte) (sent : List CoapOption) (told : List Byte) : Prop :=
  ∃ recv pdu', coapPduInit 0 0 (0, 0) pdu.bytes.length = .ok (some recv) ∧
    coapPduParse past pdu.bytes recv = some pdu' ∧ pdu'.version = coapDefaultVersion ∧
    pdu'.type = type ∧ pdu'.code = code ∧ pdu'.id = id ∧ pdu'.token = token ∧
    pdu'.request past = { options := sent, payload := if told = [] then none else some told }

/-- A message that is put together is received into a buffer of its length. -/
theorem coapPduInit_length (hinit : coapPduInit type code id size = .ok (some pdu₀))
    (htoken : coapAddToken pdu₀ token = some pdu₁) (hos : ∀ o ∈ os, o.type < 2 ^ 16)
    (hdata : coapAddData (addOptions pdu₁ os).1 payload = .ok (pdu, added)) :
    coapPduInit 0 0 (0, 0) pdu.bytes.length =
      .ok (some { maxSize := pdu.bytes.length, type := 0, code := 0, id := (0, 0) }) := by
  obtain ⟨-, -, -, -, -, -, -, hlen, -, -⟩ := message_spec hinit htoken hos hdata
  have hmin : coapHdrSize ≤ pdu.length := by
    rw [CoapPdu.length, Nat.add_assoc]
    exact Nat.le_add_right _ _
  rw [CoapPdu.length_bytes, coapPduInit, if_neg (not_lt.2 hlen), if_neg (not_lt.2 hmin)]
  rfl

/-- If what is received is what was sent, the options were written right. -/
theorem writtenRight_of_received (hinit : coapPduInit type code id size = .ok (some pdu₀))
    (htoken : coapAddToken pdu₀ token = some pdu₁) (hos : ∀ o ∈ os, o.type < 2 ^ 16)
    (hdata : coapAddData (addOptions pdu₁ os).1 payload = .ok (pdu, added))
    (h : Received past pdu (type % 4) (code % 2 ^ 8) id token (addOptions pdu₁ os).2
      (payloadAdded added payload)) :
    (∀ g ∈ gapsFrom 0 (addOptions pdu₁ os).2, WrittenRight g) ∧
      (code % 2 ^ 8 = 0 →
        token = [] ∧ (addOptions pdu₁ os).2 = [] ∧ payloadAdded added payload = []) := by
  obtain ⟨hversion, htype, hcode, hid, htok, htok8, hbody, hlen, hasc, hsub⟩ :=
    message_spec hinit htoken hos hdata
  have hrecv := coapPduInit_length hinit htoken hos hdata
  generalize (addOptions pdu₁ os).2 = sent at *
  generalize payloadAdded added payload = told at *
  have htype4 : pdu.type < 4 := htype ▸ Nat.mod_lt _ (by norm_num)
  have hbytes := CoapPdu.bytes_eq hversion htype4 (htok ▸ htok8)
  have hsent : ∀ o ∈ sent, o.type < 2 ^ 16 := fun o ho => hos o (hsub.subset ho)
  have hcode256 : pdu.code < 2 ^ 8 := hcode ▸ Nat.mod_lt _ (by norm_num)
  obtain ⟨recv, pdu', hr, hparse, -, -, hc, -, ht, hreq⟩ := h
  cases hrecv.symm.trans hr
  -- what was accepted is a message of the format; the two bodies are then compared
  obtain ⟨-, m, hm, rfl⟩ := exists_message_of_coapPduParse hparse
  have htok' : m.token = token := ht
  have hopts : numbered 0 m.gaps = sent := by
    have h := congrArg Request.options hreq
    dsimp only [CoapPdu.request] at h
    rwa [iterate_none (by rw [hm, CoapPdu.length_bytes]; exact hlen), ← numbered_eq] at h
  have hbodies : encodeOptions m.gaps ++ encodePayload m.payload =
      writtenOptions 0 sent ++ encodePayload told := by
    rw [hbytes, WireMessage.bytes, htok', htok, hbody] at hm
    simp only [List.cons.injEq] at hm
    exact List.append_cancel_left hm.2.2.2.2
  refine ⟨?_, fun h0 => ?_⟩
  · refine writtenRight_of_read (by norm_num) hasc (fun o ho => ⟨hsent o ho, ?_⟩) m.encodable
      hbodies.symm hopts
    have hvalue := length_le_writtenOptions 0 sent o ho
    have hbody' := congrArg List.length hbody
    rw [List.length_append] at hbody'
    rw [CoapPdu.length] at hlen
    omega
  · have hm0 : m.code = 0 := UInt8.toNat_inj.1 (hc.trans h0)
    obtain ⟨htoken0, hgaps0, hpay0⟩ := m.empty hm0
    refine ⟨htok'.symm.trans htoken0, by rw [← hopts, hgaps0]; rfl, ?_⟩
    rw [hgaps0, hpay0] at hbodies
    obtain ⟨-, htold⟩ := List.append_eq_nil_iff.1 hbodies.symm
    by_contra hne
    rw [encodePayload, if_neg hne] at htold
    cases htold

/-- If the options were written right, what is received is what was sent. -/
theorem received_of_writtenRight (hinit : coapPduInit type code id size = .ok (some pdu₀))
    (htoken : coapAddToken pdu₀ token = some pdu₁) (hos : ∀ o ∈ os, o.type < 2 ^ 16)
    (hdata : coapAddData (addOptions pdu₁ os).1 payload = .ok (pdu, added))
    (hright : ∀ g ∈ gapsFrom 0 (addOptions pdu₁ os).2, WrittenRight g)
    (hempty : code % 2 ^ 8 = 0 →
      token = [] ∧ (addOptions pdu₁ os).2 = [] ∧ payloadAdded added payload = []) :
    Received past pdu (type % 4) (code % 2 ^ 8) id token (addOptions pdu₁ os).2
      (payloadAdded added payload) := by
  obtain ⟨hversion, htype, hcode, hid, htok, htok8, hbody, hlen, hasc, hsub⟩ :=
    message_spec hinit htoken hos hdata
  have hrecv := coapPduInit_length hinit htoken hos hdata
  generalize (addOptions pdu₁ os).2 = sent at *
  generalize payloadAdded added payload = told at *
  have htype4 : pdu.type < 4 := htype ▸ Nat.mod_lt _ (by norm_num)
  have hbytes := CoapPdu.bytes_eq hversion htype4 (htok ▸ htok8)
  have hsent : ∀ o ∈ sent, o.type < 2 ^ 16 := fun o ho => hos o (hsub.subset ho)
  have hcode256 : pdu.code < 2 ^ 8 := hcode ▸ Nat.mod_lt _ (by norm_num)
  -- deltas and lengths can be encoded, since the message holds the values
  have hvalues : ∀ g ∈ gapsFrom 0 sent, Encodable g := by
    intro g hg
    obtain ⟨o, ho, hdelta, hvalue⟩ := mem_gapsFrom hg
    have hlt := hsent o ho
    have hle := length_le_writtenOptions 0 sent o ho
    have hbody' := congrArg List.length hbody
    rw [List.length_append] at hbody'
    rw [CoapPdu.length, coapMaxPduSize] at hlen
    exact ⟨by omega, by rw [hvalue]; omega⟩
  -- the message of the format that the bytes are those of
  obtain ⟨m, hm⟩ : ∃ m : WireMessage, m.version = 1 ∧ m.type = pdu.type ∧
      m.code = UInt8.ofNat pdu.code ∧ m.id = pdu.id ∧ m.token = token ∧
      m.gaps = gapsFrom 0 sent ∧ m.payload = told := by
    refine ⟨⟨1, pdu.type, UInt8.ofNat pdu.code, pdu.id, token, gapsFrom 0 sent, told, by norm_num,
      htype4, htok8, hvalues, fun h0 => ?_⟩, rfl, rfl, rfl, rfl, rfl, rfl, rfl⟩
    have hc0 : code % 2 ^ 8 = 0 := by
      have := congrArg UInt8.toNat h0
      rw [UInt8.toNat_ofNat', Nat.mod_eq_of_lt hcode256] at this
      exact hcode.symm.trans this
    obtain ⟨h₁, h₂, h₃⟩ := hempty hc0
    exact ⟨h₁, by rw [h₂]; rfl, h₃⟩
  obtain ⟨hv, ht, hc, hi, hk, hg, hp⟩ := hm
  have hmbody : m.body = pdu.body := by
    rw [WireMessage.body, hg, hp, hbody, writtenOptions_eq hright]
  have hmbytes : m.bytes = pdu.bytes := by
    rw [hbytes, WireMessage.bytes, hv, ht, hc, hi, hk, hmbody, htok]
  refine ⟨_, _, hrecv, (by rw [← hmbytes]; exact coapPduParse_bytes m le_rfl), hv, ht.trans htype, ?_,
    hi.trans hid, hk, ?_⟩
  · change m.code.toNat = _
    rw [hc, UInt8.toNat_ofNat', Nat.mod_eq_of_lt hcode256, hcode]
  · have hopts : numbered 0 (gapsFrom 0 sent) = sent := numbered_gapsFrom hasc hsent
    rw [CoapPdu.request, coapGetData_toPdu, hp,
      iterate_none (by rw [hmbytes, CoapPdu.length_bytes]; exact hlen), ← numbered_eq,
      Nat.zero_mod, hg, hopts]

/-- What is received is what was sent if and only if the options were written right, and a message
    with the code of an empty one is empty. -/
theorem wire_round_trip_iff (hinit : coapPduInit type code id size = .ok (some pdu₀))
    (htoken : coapAddToken pdu₀ token = some pdu₁) (hos : ∀ o ∈ os, o.type < 2 ^ 16)
    (hdata : coapAddData (addOptions pdu₁ os).1 payload = .ok (pdu, added)) :
    Received past pdu (type % 4) (code % 2 ^ 8) id token (addOptions pdu₁ os).2
        (payloadAdded added payload) ↔
      (∀ g ∈ gapsFrom 0 (addOptions pdu₁ os).2, WrittenRight g) ∧
        (code % 2 ^ 8 = 0 →
          token = [] ∧ (addOptions pdu₁ os).2 = [] ∧ payloadAdded added payload = []) :=
  ⟨writtenRight_of_received hinit htoken hos hdata,
    fun h => received_of_writtenRight hinit htoken hos hdata h.1 h.2⟩

/-- The response to a request that created the topic `ps/lamp`. -/
def created : CoapPdu where
  maxSize := 40
  type := coapMessageAck
  code := 65
  id := (0x12, 0x34)
  token := [0x0a]
  body := [0x82, 0x70, 0x73, 0x04, 0x6c, 0x61, 0x6d, 0x70, 0xff] ++ ascii "Created"
  maxDelta := coapOptionLocationPath
  data := some 9

theorem wire_round_trip_created :
    Received 0 created coapMessageAck 65 (0x12, 0x34) [0x0a]
      [⟨coapOptionLocationPath, ascii "ps"⟩, ⟨coapOptionLocationPath, ascii "lamp"⟩]
      (ascii "Created") :=
  (@wire_round_trip_iff 0 coapMessageAck 65 40 (0x12, 0x34) [0x0a] (ascii "Created")
    [⟨coapOptionLocationPath, ascii "ps"⟩, ⟨coapOptionLocationPath, ascii "lamp"⟩]
    { maxSize := 40, type := coapMessageAck, code := 65, id := (0x12, 0x34) }
    { maxSize := 40, type := coapMessageAck, code := 65, id := (0x12, 0x34), token := [0x0a] }
    created true rfl rfl (by decide) (by decide)).2 ⟨by decide, by decide⟩

end

/-- A difference of 269 is read as one of 13. -/
example : coapOptEncode 10 269 [] = some [0xd0, 0] ∧
    coapOptParse 0 [0xd0, 0] = some ⟨13, [], 2⟩ := by decide

/-! ## The numbers of the options -/

section

variable {past : Byte} {α : Type*}

theorem le_lastNumber {base : ℕ} {l : List (ℕ × α)} (h : AscendingFrom base l) :
    base ≤ lastNumber base l ∧ ∀ x ∈ l, x.1 ≤ lastNumber base l := by
  induction l generalizing base with
  | nil => exact ⟨le_rfl, fun x hx => absurd hx List.not_mem_nil⟩
  | cons x l ih =>
    obtain ⟨hle, hl⟩ := h
    obtain ⟨hlast, hall⟩ := ih hl
    exact ⟨hle.trans hlast, List.forall_mem_cons.2 ⟨hlast, hall⟩⟩

theorem lastNumber_mem {base : ℕ} {l : List (ℕ × α)} (h : l ≠ []) :
    ∃ x ∈ l, x.1 = lastNumber base l := by
  induction l generalizing base with
  | nil => exact absurd rfl h
  | cons x l ih =>
    by_cases hl : l = []
    · exact ⟨x, List.mem_cons_self, by rw [hl]; rfl⟩
    · obtain ⟨y, hy, hlast⟩ := @ih x.1 hl
      exact ⟨y, List.mem_cons_of_mem _ hy, hlast⟩

/-- The options of an accepted message have the numbers of the format if and only if the last
    number is one of 16 bits. -/
theorem numbers_delivered_iff {m : WireMessage} {pdu pdu' : CoapPdu}
    (hsize : pdu.maxSize ≤ coapMaxPduSize) (h : coapPduParse past m.bytes pdu = some pdu') :
    pdu'.iterate past none = (absolute 0 m.gaps).map (fun x => (⟨x.1, x.2⟩ : CoapOption)) ↔
      lastNumber 0 (absolute 0 m.gaps) < 2 ^ 16 := by
  have hle := (exists_message_of_coapPduParse h).1
  have hpdu : coapPduParse past m.bytes pdu = some (m.toPdu pdu) :=
    coapPduParse_bytes m hle
  obtain rfl := Option.some.inj (h.symm.trans hpdu)
  have hall := le_lastNumber (ascendingFrom_absolute 0 m.gaps)
  rw [iterate_none (hle.trans hsize)]
  constructor
  · intro heq
    by_cases hnil : absolute 0 m.gaps = []
    · rw [hnil]
      exact Nat.two_pow_pos _
    · -- the last number has not been reduced
      obtain ⟨x, hx, hlast⟩ := @lastNumber_mem _ 0 _ hnil
      rw [← hlast]
      have hred := congrArg CoapOption.type (List.map_eq_map_iff.1 heq x hx)
      dsimp only at hred
      rw [← hred]
      exact Nat.mod_lt _ (by norm_num)
  · intro hlt
    refine List.map_congr_left fun x hx => ?_
    rw [Nat.mod_eq_of_lt ((hall.2 x hx).trans_lt hlt)]

/-- A request with an option of number 65535 and one that comes 12 after it. -/
def wrapped : WireMessage where
  version := 1
  type := 0
  code := 1
  id := (0, 1)
  token := []
  gaps := [(65535, []), (12, ascii "ps")]
  payload := []
  version_lt := by decide
  type_lt := by decide
  token_le := by decide
  encodable g hg := by
    rcases List.mem_cons.1 hg with rfl | hg
    · exact ⟨by decide, by decide⟩
    · rw [List.mem_singleton.1 hg]
      exact ⟨by decide, by decide⟩
  empty h := absurd h (by decide)

/-- The second option is taken for one of the path. -/
theorem numbers_delivered_wrapped :
    (wrapped.toPdu { maxSize := 10, type := 0, code := 0, id := (0, 0) }).iterate 0 none =
        (absolute 0 wrapped.gaps).map (fun x => (⟨x.1, x.2⟩ : CoapOption)) ↔
      lastNumber 0 (absolute 0 wrapped.gaps) < 2 ^ 16 :=
  @numbers_delivered_iff 0 wrapped { maxSize := 10, type := 0, code := 0, id := (0, 0) } _
    (by decide) (by decide)

/-! ## Looking for options -/

/-- Going through the options with a number. -/
theorem iterate_number {m : WireMessage} {pdu : CoapPdu} (hsize : m.bytes.length ≤ coapMaxPduSize)
    (n : ℕ) :
    (m.toPdu pdu).iterate past (some (coapOptionFilterOp OptFilter.clear n .set).1) =
      ((m.toPdu pdu).iterate past none).filter fun o => o.type = n := by
  rw [iterate_eq hsize, iterate_none hsize]
  exact List.filter_congr fun o _ => coapOptionFilterGet_set n o.type

/-- Looking for an option finds the first one of its number, with its value. -/
theorem coapCheckOption_eq {m : WireMessage} {pdu : CoapPdu}
    (hsize : m.bytes.length ≤ coapMaxPduSize) (n : ℕ) :
    ((coapCheckOption past (m.toPdu pdu) n).map fun x =>
        (⟨x.2.type, ((coapOptValue past x.1).getD []).take (coapOptLength past x.1)⟩ : CoapOption)) =
      ((m.toPdu pdu).iterate past none).find? fun o => o.type = n := by
  rw [← List.head?_filter, ← iterate_number hsize, CoapPdu.iterate, iterateFrom,
    coapCheckOption]
  rcases coapOptionNext past _ with _ | ⟨opt, oi⟩
  · rfl
  · rfl

end

end CoapBroker
