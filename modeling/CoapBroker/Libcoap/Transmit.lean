import CoapBroker.Libcoap.RoundTrip

/-!
# Transmitting responses

A response (`Pdu`) is put into a message of the greatest size, sent, and parsed by a client that
uses libcoap as well. It arrives as it is (`transmit_eq`) when its options are in order and written
right, and everything fits (`Pdu.Fits`). When only the options fit, it arrives without its data
(`received_of_sendable`).
-/

namespace CoapBroker

/-- What a client gets of a response, if anything. -/
def transmit (past : Byte) (type : ℕ) (id : Byte × Byte) (token : List Byte) (response : Pdu) :
    Option Pdu :=
  match coapPduInit type response.code id coapMaxPduSize with
  | .ok (some pdu) =>
    match coapAddToken pdu token with
    | some pdu =>
      match coapAddData (addOptions pdu response.options).1 response.data with
      | .ok (pdu, _) =>
        match coapPduInit 0 0 (0, 0) pdu.bytes.length with
        | .ok (some recv) => (coapPduParse past pdu.bytes recv).map fun pdu =>
          { code := pdu.code, options := (pdu.request past).options,
            data := (pdu.request past).data }
        | _ => none
      | .error _ => none
    | none => none
  | _ => none

/-- What a message takes besides its header and its token. -/
def Pdu.wireSize (response : Pdu) : ℕ :=
  (writtenOptions 0 response.options).length + (encodePayload response.data).length

/-- A response whose options arrive when there is room for them. -/
structure Pdu.Sendable (response : Pdu) : Prop where
  code_pos : 0 < response.code
  code_lt : response.code < 2 ^ 8
  ascending : AscendingFrom 0 (response.options.map fun o => (o.type, o.value))
  type_lt : ∀ o ∈ response.options, o.type < 2 ^ 16
  right : ∀ g ∈ gapsFrom 0 response.options, WrittenRight g

/-- A response that can be sent whole with a token of a length. -/
structure Pdu.Fits (response : Pdu) (tokenLength : ℕ) : Prop extends response.Sendable where
  room : coapHdrSize + tokenLength + response.wireSize ≤ coapMaxPduSize

/-- The data that arrives of a response: all of it, or nothing when there is no room. -/
def Pdu.arriving (response : Pdu) (tokenLength : ℕ) : List Byte :=
  if coapHdrSize + tokenLength + response.wireSize ≤ coapMaxPduSize then response.data else []

/-- Behind the options, the data is added that arrives. -/
theorem coapAddData_arriving {pdu : CoapPdu} {response : Pdu} {tokenLength : ℕ}
    (hnone : pdu.data = none) (hmax : pdu.maxSize = coapMaxPduSize)
    (hlen : pdu.length = coapHdrSize + tokenLength + (writtenOptions 0 response.options).length) :
    ∃ pdu' added, coapAddData pdu response.data = .ok (pdu', added) ∧
      payloadAdded added response.data = response.arriving tokenLength := by
  rw [coapAddData, hnone, if_neg (by exact Bool.false_ne_true), hmax, Pdu.arriving, Pdu.wireSize]
  by_cases hnil : response.data = []
  · refine ⟨_, _, if_pos (by rw [hnil]; rfl), ?_⟩
    rw [hnil, payloadAdded, ite_self, ite_self]
  -- a start marker goes before the data
  have hsize : (encodePayload response.data).length = response.data.length + 1 := by
    rw [encodePayload, if_neg hnil, List.length_cons]
  rw [if_neg fun h0 => hnil (List.length_eq_zero_iff.1 h0), hsize]
  split_ifs
  · omega
  · exact ⟨_, _, rfl, rfl⟩
  · exact ⟨_, _, rfl, rfl⟩
  · omega

/-- A response whose options fit is put together, and arrives with its data if that fits too. -/
theorem received_of_sendable (past : Byte) (type : ℕ) (id : Byte × Byte) {token : List Byte}
    {response : Pdu} (htoken : token.length ≤ 8) (h : response.Sendable)
    (hroom : coapHdrSize + token.length + (writtenOptions 0 response.options).length ≤
      coapMaxPduSize) :
    ∃ pdu₀ pdu₁ pdu added, coapPduInit type response.code id coapMaxPduSize = .ok (some pdu₀) ∧
      coapAddToken pdu₀ token = some pdu₁ ∧
      coapAddData (addOptions pdu₁ response.options).1 response.data = .ok (pdu, added) ∧
      Received past pdu (type % 4) response.code id token response.options
        (response.arriving token.length) := by
  obtain ⟨pdu₀, hinit⟩ : ∃ pdu₀ : CoapPdu, pdu₀ = ⟨coapMaxPduSize, coapDefaultVersion, type % 4,
    response.code % 2 ^ 8, id, [], [], 0, none⟩ := ⟨_, rfl⟩
  have hpdu₀ : coapPduInit type response.code id coapMaxPduSize = .ok (some pdu₀) := by
    rw [coapPduInit, if_neg (lt_irrefl _), if_neg (by decide), hinit]
  obtain ⟨pdu₁, hpdu₁⟩ : ∃ pdu₁ : CoapPdu, pdu₁ = { pdu₀ with token } := ⟨_, rfl⟩
  have htok : coapAddToken pdu₀ token = some pdu₁ := by
    rw [coapAddToken, if_neg, hpdu₁, hinit]
    rw [hinit, not_or, not_lt, not_lt, coapMaxPduSize]
    exact ⟨htoken, by dsimp only; omega⟩
  have hlen₁ : pdu₁.length = coapHdrSize + token.length := by
    rw [hpdu₁, hinit]
    rfl
  -- no option is left out, so that what is written is known
  have hall : (addOptions pdu₁ response.options).2 = response.options := by
    have hmaxDelta : pdu₁.maxDelta = 0 := by rw [hpdu₁, hinit]
    have hmax : pdu₁.maxSize = coapMaxPduSize := by rw [hpdu₁, hinit]
    refine addOptions_eq hmax.le h.type_lt ?_ ?_
    · rw [hmaxDelta]
      exact h.ascending
    · rw [hmaxDelta, hmax, hlen₁]
      exact hroom
  obtain ⟨hspec, -, -, -⟩ := @addOptions_spec pdu₁ response.options
    (by rw [hpdu₁, hinit]) (by rw [hlen₁, hpdu₁, hinit]; dsimp only; omega) h.type_lt
    (by rw [hpdu₁, hinit])
  rw [hall] at hspec
  have hlen : (addOptions pdu₁ response.options).1.length =
      coapHdrSize + token.length + (writtenOptions 0 response.options).length := by
    rw [hspec, hpdu₁, hinit]
    rfl
  obtain ⟨pdu, added, hdata, hadded⟩ := @coapAddData_arriving (addOptions pdu₁ response.options).1
    response token.length (by rw [hspec, hpdu₁, hinit]) (by rw [hspec, hpdu₁, hinit]) hlen
  have hreceived := @received_of_writtenRight past type response.code coapMaxPduSize id token
    response.data response.options pdu₀ pdu₁ pdu added hpdu₀ htok h.type_lt hdata
    (by rw [hall]; exact h.right) fun h0 => by
      rw [Nat.mod_eq_of_lt h.code_lt] at h0
      exact absurd h0 (Nat.ne_of_gt h.code_pos)
  rw [hall, hadded, Nat.mod_eq_of_lt h.code_lt] at hreceived
  exact ⟨pdu₀, pdu₁, pdu, added, hpdu₀, htok, hdata, hreceived⟩

/-- A response whose options fit arrives, with its data if that fits as well. -/
theorem transmit_of_sendable {past : Byte} {type : ℕ} {id : Byte × Byte} {token : List Byte}
    {response : Pdu} (htoken : token.length ≤ 8) (h : response.Sendable)
    (hroom : coapHdrSize + token.length + (writtenOptions 0 response.options).length ≤
      coapMaxPduSize) :
    transmit past type id token response =
      some { response with data := response.arriving token.length } := by
  obtain ⟨pdu₀, pdu₁, pdu, added, hpdu₀, htok, hdata, recv, pdu', hrecv, hparse, -, -, hcode, -, -,
    hreq⟩ := received_of_sendable past type id htoken h hroom
  have hd : Request.data { options := response.options
                           payload := if response.arriving token.length = [] then none
                             else some (response.arriving token.length) } =
      response.arriving token.length := by
    rw [Request.data]
    dsimp only
    split_ifs with h0
    · rw [h0]
      rfl
    · rfl
  rw [transmit, hpdu₀]
  dsimp only
  rw [htok]
  dsimp only
  rw [hdata]
  dsimp only
  rw [hrecv]
  dsimp only
  rw [hparse, Option.map_some, hreq, hcode, hd]

/-- A response that fits arrives as it is. -/
theorem transmit_eq {past : Byte} {type : ℕ} {id : Byte × Byte} {token : List Byte} {response : Pdu}
    (htoken : token.length ≤ 8) (h : response.Fits token.length) :
    transmit past type id token response = some response := by
  have hroom := h.room
  rw [Pdu.wireSize] at hroom
  rw [transmit_of_sendable htoken h.toSendable (by omega), Pdu.arriving, if_pos h.room]

end CoapBroker
