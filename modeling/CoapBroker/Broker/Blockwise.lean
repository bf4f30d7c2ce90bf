import CoapBroker.Broker.Discovery
import CoapBroker.Lib.Blockwise
import CoapBroker.Libcoap.BlockOption
import CoapBroker.Libcoap.Transmit

/-!
# Discovery in blocks

The answer of `hnd_get_broker` may be too large for a message. A client then fetches it block by
block: it reads the block option of an answer, and asks for the block after it until there are no
more. Every answer goes over the wire (`transmit`).

Whatever block size the client asks for first, and also if it asks for none, what it puts together
is the descriptions of the matching topics, whole (`discovery_reassembles`).
-/

namespace CoapBroker

/-- The room for the body of an answer, after its token and its content format. -/
def discoveryRoom (token : List Byte) : ℕ := coapMaxPduSize - (coapHdrSize + token.length + 2)

/-- What a client makes of an answer with content: without a block option, it is all there is. -/
def answerOf (response : Pdu) : Option (BlockAnswer Byte) :=
  if response.code = coapResponseCode 205 then
    match response.options.find? fun o => o.type = coapOptionBlock2 with
    | none => some ⟨0, 0, false, response.data⟩
    | some o => (coapGetBlock (some o.value)).map fun block =>
      ⟨block.num, block.szx, block.m, response.data⟩
  else none

/-- A request for discovery and the answer to it, in messages with an identifier and a token. -/
def fetchDiscovery (past : Byte) (b : Broker) (request : Request) (junk : CStr → ℕ → Byte)
    (type : ℕ) (token : List Byte) (id : Byte × Byte) (block2 : Option (List Byte)) :
    Option (BlockAnswer Byte) :=
  match hndGetBroker b request (coapGetBlock block2) (discoveryRoom token) junk with
  | .ok response => (transmit past type id token response).bind answerOf
  | .error _ => none

/-- The size of a block. -/
def blockSize (szx : ℕ) : ℕ := 2 ^ (szx + 4)

/-! ## One answer -/

section

variable {past : Byte} {type : ℕ} {token : List Byte} {id : Byte × Byte} {data : CStr}

theorem length_encodePayload_le (payload : List Byte) :
    (encodePayload payload).length ≤ 1 + payload.length := by
  rw [encodePayload]
  split_ifs
  · exact Nat.zero_le _
  · rw [List.length_cons]
    omega

/-- The answer with a body, from its content format on. -/
def contentResponse : Pdu :=
  ({} : Pdu).addOption coapOptionContentType
    (coapEncodeVarBytes coapMediatypeApplicationLinkFormat)

/-- A block that begins within the data is added. -/
theorem coapAddBlock_of_lt {pdu : Pdu} {bytes : List Byte} {block : CoapBlock}
    (h : block.num * block.size < bytes.length) : coapAddBlock pdu bytes block =
      pdu.addData ((bytes.drop (block.num * block.size)).take block.size) := by
  rw [coapAddBlock]
  exact if_neg (by omega)

/-- An answer that is a block of the data fits and says what it holds. -/
theorem blockResponse_spec {block block' : CoapBlock} (htoken : token.length ≤ 8)
    (hlen : data.length ≤ 2 ^ 23) (hszx : block'.szx ≤ 7)
    (hnum : block'.num * block'.size = block.num * block.size)
    (hstart : block.num * block.size < data.length)
    (hmore : block'.m = true ↔ block.num * block.size + block'.size < data.length)
    (hroom : min (data.length - block.num * block.size) block'.size + 4 ≤ discoveryRoom token) :
    let response := (coapAddBlock (contentResponse.addOption coapOptionBlock2 block'.encode)
      data.bytes block').setCode 205
    response.Fits token.length ∧
      ∃ a, answerOf response = some a ∧
        a.Holds blockSize data.bytes (block.num * block.size) ∧ a.szx = block'.szx := by
  have hpos : 2 ^ 4 ≤ block'.size := Nat.pow_le_pow_right (by norm_num) (by omega)
  have hnum20 : block'.num < 2 ^ 20 := by
    by_contra hge
    have := Nat.mul_le_mul (not_lt.1 hge) hpos
    omega
  have hbytes : data.length = data.bytes.length := rfl
  have hadd : coapAddBlock (contentResponse.addOption coapOptionBlock2 block'.encode) data.bytes
      block' = (contentResponse.addOption coapOptionBlock2 block'.encode).addData
        ((data.bytes.drop (block.num * block.size)).take block'.size) := by
    rw [coapAddBlock_of_lt (by omega), hnum]
  intro response
  have hresponse : response = ((contentResponse.addOption coapOptionBlock2 block'.encode).addData
      ((data.bytes.drop (block.num * block.size)).take block'.size)).setCode 205 :=
    congrArg (Pdu.setCode · 205) hadd
  have hopts : response.options =
      [⟨coapOptionContentType, [40]⟩, ⟨coapOptionBlock2, block'.encode⟩] := by
    rw [hresponse]
    rfl
  have hdata : response.data = (data.bytes.drop (block.num * block.size)).take block'.size := by
    rw [hresponse]
    rfl
  have hcode : response.code = coapResponseCode 205 := rfl
  have hdlen : response.data.length = min (data.length - block.num * block.size) block'.size := by
    rw [hdata, List.length_take, List.length_drop, hbytes, Nat.min_comm]
  have hencode := @CoapBlock.encode_eq block' (by omega)
  have hbit : block'.m.toNat < 2 := by
    rcases block'.m with _ | _ <;> decide
  -- a block option of three bytes comes with a block of at most 1024 bytes
  have henc : block'.encode.length ≤ 3 ∧ (block'.encode.length ≤ 2 ∨ block'.size ≤ 1024) := by
    rw [hencode, length_coapEncodeVarBytes_le_iff, length_coapEncodeVarBytes_le_iff,
      Nat.mod_eq_of_lt (by omega)]
    refine ⟨by omega, ?_⟩
    by_cases h6 : block'.szx ≤ 6
    · have hsmall : block'.size ≤ 2 ^ 10 := Nat.pow_le_pow_right (by norm_num) (by omega)
      exact .inr hsmall
    · have h7 : block'.szx = 7 := by omega
      have hsize : block'.size = 2048 := by rw [CoapBlock.size, h7]; rfl
      rw [hsize] at hnum
      omega
  refine ⟨⟨⟨by rw [hcode]; decide, by rw [hcode]; decide, ?_, ?_, ?_⟩, ?_⟩, ?_⟩
  · rw [hopts]
    exact ⟨Nat.zero_le _, (by decide : coapOptionContentType ≤ coapOptionBlock2), trivial⟩
  · rw [hopts]
    simp only [List.forall_mem_cons, coapOptionContentType, coapOptionBlock2]
    exact ⟨by norm_num, by norm_num, fun o ho => absurd ho List.not_mem_nil⟩
  · rw [hopts]
    have hne : block'.encode.length ≠ 269 := by omega
    exact List.forall_mem_cons.2 ⟨⟨by decide, by decide⟩, List.forall_mem_cons.2
      ⟨⟨(by decide : coapOptionBlock2 - coapOptionContentType ≠ 269), hne⟩,
        fun g hg => absurd hg List.not_mem_nil⟩⟩
  · have hsize : (writtenOptions 0 response.options).length = 3 + block'.encode.length := by
      rw [hopts, writtenOptions_cons, writtenOptions_cons, List.length_append, List.length_append,
        length_writtenOption (by decide) (by decide),
        length_writtenOption (by change coapOptionBlock2 - coapOptionContentType < 13; decide)
          (by dsimp only; omega)]
      change 1 + 1 + (1 + block'.encode.length + 0) = _
      omega
    have hpay := length_encodePayload_le response.data
    rw [discoveryRoom, coapHdrSize, coapMaxPduSize] at hroom
    rw [Pdu.wireSize, hsize, coapHdrSize, coapMaxPduSize]
    omega
  · have hfind : (response.options.find? fun o => o.type = coapOptionBlock2) =
        some ⟨coapOptionBlock2, block'.encode⟩ := by
      rw [hopts]
      rfl
    refine ⟨⟨block'.num, block'.szx, block'.m, response.data⟩, ?_, ⟨?_, ?_⟩, rfl⟩
    · rw [answerOf, if_pos hcode, hfind]
      dsimp only
      rw [coapGetBlock_encode hnum20 (by omega)]
      rfl
    · dsimp only
      rw [hdata]
      split_ifs with hm
      · rfl
      · -- the rest is no longer than the block
        have hle : data.bytes.length ≤ block.num * block.size + block'.size :=
          not_lt.1 fun hlt => hm (hmore.2 hlt)
        rw [List.take_of_length_le, List.take_of_length_le]
        · rw [List.length_drop]
          omega
        · rw [List.length_drop]
          omega
    · intro hm
      exact ⟨hnum, hmore.1 hm⟩

theorem room_le (htoken : token.length ≤ 8) :
    20 ≤ discoveryRoom token ∧ discoveryRoom token + 4 + token.length + 2 = 1400 := by
  rw [discoveryRoom, coapMaxPduSize, coapHdrSize]
  omega

/-- An answer to a request for a block within the data holds the data from there on. -/
theorem bodyResponse_block {block : CoapBlock} (htoken : token.length ≤ 8)
    (hlen : data.length ≤ 2 ^ 23) (hszx : block.szx ≤ 7)
    (hstart : block.num * block.size < data.length) :
    ∃ response, bodyResponse (some block) (discoveryRoom token) data = .ok response ∧
      response.Fits token.length ∧
      ∃ a, answerOf response = some a ∧
        a.Holds blockSize data.bytes (block.num * block.size) ∧ a.szx ≤ 7 := by
  obtain ⟨block', hwrite, hle, hnum, hmore, hroom⟩ :=
    @coapWriteBlockOpt_spec block coapOptionBlock2 (discoveryRoom token) data.length contentResponse
      (room_le htoken).1 hstart
  obtain ⟨hfits, a, ha, hholds, haszx⟩ :=
    blockResponse_spec htoken hlen (hle.trans hszx) hnum hstart
    hmore hroom
  refine ⟨_, ?_, hfits, a, ha, hholds, haszx.trans_le (hle.trans hszx)⟩
  rw [contentResponse] at hwrite
  rw [bodyResponse, hwrite]
  rfl

/-- An answer with a body and no block option fits if the body and the marker do. -/
theorem contentResponse_fits {body : List Byte} (h : body.length + 1 ≤ discoveryRoom token) :
    ((contentResponse.addData body).setCode 205).Fits token.length := by
  refine ⟨⟨(by decide : 0 < coapResponseCode 205), (by decide : coapResponseCode 205 < 2 ^ 8),
    ⟨Nat.zero_le _, trivial⟩, ?_, ?_⟩, ?_⟩
  · exact List.forall_mem_cons.2 ⟨by decide, fun o ho => absurd ho List.not_mem_nil⟩
  · exact List.forall_mem_cons.2 ⟨⟨by decide, by decide⟩, fun g hg => absurd hg List.not_mem_nil⟩
  · have hpay := length_encodePayload_le body
    rw [discoveryRoom, coapHdrSize, coapMaxPduSize] at h
    rw [Pdu.wireSize, coapHdrSize, coapMaxPduSize]
    change 4 + token.length + (2 + (encodePayload body).length) ≤ 1400
    omega

/-- An answer to a request that asks for no block holds the data from its beginning on. -/
theorem bodyResponse_none (htoken : token.length ≤ 8) (hlen : data.length ≤ 2 ^ 23)
    (hpos : 0 < data.length) :
    ∃ response, bodyResponse none (discoveryRoom token) data = .ok response ∧
      response.Fits token.length ∧
      ∃ a, answerOf response = some a ∧ a.Holds blockSize data.bytes 0 ∧ a.szx ≤ 7 := by
  by_cases hfits : data.length + 1 ≤ discoveryRoom token
  · refine ⟨(contentResponse.addData data.bytes).setCode 205, ?_, contentResponse_fits hfits,
      ⟨0, 0, false, data.bytes⟩, rfl, ⟨?_, fun h => absurd h Bool.false_ne_true⟩, Nat.zero_le _⟩
    · rw [bodyResponse]
      exact if_pos hfits
    · rw [if_neg Bool.false_ne_true, List.drop_zero, List.take_length]
  · -- the first block of the greatest size is sent
    obtain ⟨block', hwrite, hle, hnum, hmore, hroom⟩ :=
      @coapWriteBlockOpt_spec { szx := 6 } coapOptionBlock2 (discoveryRoom token) data.length
        contentResponse (room_le htoken).1 (by dsimp only; omega)
    obtain ⟨hfit, a, ha, hholds, haszx⟩ := blockResponse_spec htoken hlen (hle.trans (by norm_num))
      hnum (by dsimp only; omega) hmore hroom
    dsimp only at hholds
    rw [Nat.zero_mul] at hholds
    refine ⟨_, ?_, hfit, a, ha, hholds, haszx.trans_le (hle.trans (by norm_num))⟩
    rw [contentResponse] at hwrite
    rw [bodyResponse, if_neg hfits, hwrite]
    rfl

end

/-! ## The whole transfer -/

theorem descriptions_pos {rs : List CoapResource} (h : rs ≠ []) : 0 < (descriptions rs).length := by
  obtain ⟨r, rs, rfl⟩ := List.exists_cons_of_ne_nil h
  have hdesc : 0 < (description r).length := by
    simp only [description, List.length_append]
    exact Nat.lt_of_lt_of_le (by decide : 0 < (ascii "</").length) (by omega)
  rw [descriptions, List.map_cons]
  rcases List.map description rs with _ | ⟨s, ss⟩
  · rwa [List.intercalate_singleton]
  · rw [List.intercalate_cons_cons, List.length_append, List.length_append]
    omega

/-- A client that fetches the answer to a request for discovery block by block, from the first
    block on, puts together the descriptions of the matching topics, whole, whatever size it asks
    for, and also if it asks for none. (The answer is at most 8 MiB long: then the numbers of the
    blocks have 20 bits, and every answer fits a message.) -/
theorem discovery_reassembles (past : Byte) (b : Broker) (request : Request)
    (queries : List (CStr × CStr))
    (h : (uriQueries request).map (fun o => parseOptionURIQuery o.value) = queries.map some)
    (junk : CStr → ℕ → Byte) (type : ℕ) (token : List Byte) (htoken : token.length ≤ 8)
    (id : ℕ → ℕ → Byte × Byte) (hfound : matching queries b.resources ≠ [])
    (hlen : (descriptions (matching queries b.resources)).length ≤ 2 ^ 23)
    (first : Option (List Byte))
    (hfirst : first = none ∨ ∃ szx ≤ 7, first = some (CoapBlock.encode { szx })) :
    ∃ a, fetchDiscovery past b request junk type token (id 0 0) first = some a ∧
      assemble (fun num szx => fetchDiscovery past b request junk type token (id num szx)
          (some (CoapBlock.encode { num, szx })))
        (descriptions (matching queries b.resources)).length a =
          some (descriptions (matching queries b.resources)) := by
  obtain ⟨data, hdata⟩ : ∃ data : CStr,
    data = CStr.read (descriptions (matching queries b.resources)) := ⟨_, rfl⟩
  have hbytes : data.bytes = descriptions (matching queries b.resources) := by
    rw [hdata]
    exact CStr.read_of_notMem (nul_notMem_descriptions _)
  rw [← hbytes] at hlen ⊢
  have hpos : 0 < data.length := by
    rw [CStr.length, hbytes]
    exact descriptions_pos hfound
  have hget : ∀ id block2, fetchDiscovery past b request junk type token id block2 =
      match bodyResponse (coapGetBlock block2) (discoveryRoom token) data with
      | .ok response => (transmit past type id token response).bind answerOf
      | .error _ => none := fun id block2 => by
    rw [fetchDiscovery, hndGetBroker_eq h, if_neg hfound, ← hdata]
  -- a request for a block within the data is answered with what is there
  have hserve : ∀ num szx, szx ≤ 7 → num * blockSize szx < data.bytes.length →
      ∀ id, ∃ a, fetchDiscovery past b request junk type token id
          (some (CoapBlock.encode { num, szx })) = some a ∧
        a.Holds blockSize data.bytes (num * blockSize szx) ∧ a.szx ≤ 7 := by
    intro num szx hszx hstart id
    have hsize : 2 ^ 4 ≤ blockSize szx := Nat.pow_le_pow_right (by norm_num) (by omega)
    have hnum : num < 2 ^ 20 := by
      by_contra hge
      have := Nat.mul_le_mul (not_lt.1 hge) hsize
      omega
    obtain ⟨response, hresponse, hfits, a, ha, hholds, haszx⟩ :=
      @bodyResponse_block token data { num, szx } htoken hlen hszx hstart
    refine ⟨a, ?_, hholds, haszx⟩
    rw [hget, coapGetBlock_encode hnum (Nat.lt_succ_of_le hszx), hresponse]
    dsimp only
    rw [transmit_eq htoken hfits, Option.bind_some, ha]
  obtain ⟨a, ha, hholds, hszx⟩ : ∃ a, fetchDiscovery past b request junk type token (id 0 0) first =
      some a ∧ a.Holds blockSize data.bytes 0 ∧ a.szx ≤ 7 := by
    rcases hfirst with rfl | ⟨szx, hszx, rfl⟩
    · obtain ⟨response, hresponse, hfits, a, ha, hholds, haszx⟩ :=
        bodyResponse_none htoken hlen hpos
      refine ⟨a, ?_, hholds, haszx⟩
      have hnone : coapGetBlock none = none := rfl
      rw [hget, hnone, hresponse]
      dsimp only
      rw [transmit_eq htoken hfits, Option.bind_some, ha]
    · obtain ⟨a, ha, hholds, haszx⟩ := hserve 0 szx hszx (by rw [Nat.zero_mul]; exact hpos) (id 0 0)
      rw [Nat.zero_mul] at hholds
      exact ⟨a, ha, hholds, haszx⟩
  refine ⟨a, ha, ?_⟩
  have hall := assemble_eq (fun szx => Nat.two_pow_pos (szx + 4))
    (fun num szx hszx hstart => hserve num szx hszx hstart (id num szx)) hholds hszx
    (Nat.le_add_left _ _)
  rw [List.drop_zero] at hall
  exact hall

/-- Fetching the descriptions of two topics in blocks of 16 bytes. -/
theorem discovery_reassembles_two :
    let topic (uri rt : String) : CoapResource :=
      (coapResourceInit (CStr.lit uri) 0).addAttr (CStr.lit "rt") (CStr.lit rt) 0
    let b : Broker := {
      resources := [coapResourceInit brokerPath 0, topic "ps/x" "a", topic "ps/y" "b",
        topic "ps/z" "a"]
      mqttBridge := false }
    let request : Request := { options := [⟨coapOptionUriQuery, ascii "rt=a"⟩], payload := none }
    ∃ a, fetchDiscovery 0 b request (fun _ _ => 7) coapMessageAck [1] (0, 0)
        (some (CoapBlock.encode {})) = some a ∧
      assemble (fun num szx => fetchDiscovery 0 b request (fun _ _ => 7) coapMessageAck [1] (0, 0)
          (some (CoapBlock.encode { num, szx })))
        (descriptions (matching [(CStr.lit "rt", CStr.lit "a")] b.resources)).length a =
          some (descriptions (matching [(CStr.lit "rt", CStr.lit "a")] b.resources)) := by
  intro topic b request
  exact discovery_reassembles 0 b request [(CStr.lit "rt", CStr.lit "a")] (by decide) (fun _ _ => 7)
    coapMessageAck [1] (by decide) (fun _ _ => (0, 0)) (by decide) (by decide) _
    (.inr ⟨0, by decide, rfl⟩)

end CoapBroker
