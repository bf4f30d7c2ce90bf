import CoapBroker.Broker.Get
import CoapBroker.Libcoap.Transmit

/-!
# Answers to reads

A read of a topic, and a notification, is answered with up to three options and the data. In a
message the options always fit behind the header and a token (`length_readHead`); whether the data
does as well is up to `coap_add_data`, so that a client gets it or not (`transmit_readHead`).
-/

namespace CoapBroker

/-- The options of an answer to a read: those of data that expires have a `Max-Age`. -/
def readHead (observe : Option ℕ) (format : ℕ) (maxAge : Option ℕ) : List CoapOption :=
  (observe.map fun n => ⟨coapOptionObserve, coapEncodeVarBytes n⟩).toList ++
    ⟨coapOptionContentType, coapEncodeVarBytes format⟩ ::
      (maxAge.map fun n => ⟨coapOptionMaxage, coapEncodeVarBytes n⟩).toList

/-- What some options take in a message, when their numbers are close together. -/
def headSize (options : List CoapOption) : ℕ := (options.map fun o => 1 + o.value.length).sum

variable {observe : Option ℕ} {format : ℕ} {maxAge : Option ℕ}

/-- Unless the data has expired, the response is made of the options and the data. -/
theorem readResponse_eq {temp : TopicData} {data : CStr} {ct now : ℤ}
    (hdata : temp.data = some data)
    (h : ¬(temp.dataMa < now ∧ temp.dataMa ≠ 0)) : readResponse temp observe ct now =
      { code := coapResponseCode 205
        options := readHead observe (toUnsigned ct)
          (if temp.dataMa = 0 then none else some (toUnsigned (temp.dataMa - now)))
        data := data.bytes } := by
  rw [readResponse, hdata]
  dsimp only
  rw [if_neg fun hexp => h ⟨by omega, hexp.2⟩]
  by_cases h0 : temp.dataMa = 0
  · rw [if_neg (not_not.2 h0), if_pos h0]
    cases observe <;> rfl
  · rw [if_pos h0, if_neg h0]
    cases observe <;> rfl

/-- A read is answered with data only if there is data that has not expired. -/
theorem exists_data_of_readResponse {temp : TopicData} {ct now : ℤ}
    (h : (readResponse temp observe ct now).code = coapResponseCode 205) :
    ∃ data, temp.data = some data ∧ ¬(temp.dataMa < now ∧ temp.dataMa ≠ 0) := by
  have h204 : coapResponseCode 204 ≠ coapResponseCode 205 := by decide
  by_contra hnone
  rw [readResponse_noContent] at h
  · exact h204 h
  · rcases hdata : temp.data with _ | data
    · exact .inl rfl
    · exact .inr (not_not.1 fun h => hnone ⟨data, hdata, h⟩)

theorem length_coapEncodeVarBytes_le (n : ℕ) : (coapEncodeVarBytes n).length ≤ 4 :=
  length_coapEncodeVarBytes_le_iff.2 (Nat.mod_lt _ (by norm_num))

theorem mem_readHead {o : CoapOption} (h : o ∈ readHead observe format maxAge) :
    (o.type = coapOptionObserve ∨ o.type = coapOptionContentType ∨ o.type = coapOptionMaxage) ∧
      ∃ n, o.value = coapEncodeVarBytes n := by
  rcases List.mem_append.1 h with h | h
  · obtain ⟨n, -, rfl⟩ := Option.map_eq_some_iff.1 (Option.mem_toList.1 h)
    exact ⟨.inl rfl, n, rfl⟩
  rcases List.mem_cons.1 h with rfl | h
  · exact ⟨.inr (.inl rfl), format, rfl⟩
  · obtain ⟨n, -, rfl⟩ := Option.map_eq_some_iff.1 (Option.mem_toList.1 h)
    exact ⟨.inr (.inr rfl), n, rfl⟩

/-- The gaps between the numbers of the options are short, and so are the values. -/
theorem gapsFrom_readHead {g : ℕ × List Byte}
    (hg : g ∈ gapsFrom 0 (readHead observe format maxAge)) : g.1 < 13 ∧ g.2.length ≤ 4 := by
  have hlen := length_coapEncodeVarBytes_le
  have hct : coapOptionContentType - 0 < 13 := by decide
  have hobs : coapOptionObserve - 0 < 13 := by decide
  have hct' : coapOptionContentType - coapOptionObserve < 13 := by decide
  have hma : coapOptionMaxage - coapOptionContentType < 13 := by decide
  rcases observe with _ | n <;> rcases maxAge with _ | v
  · obtain rfl := List.mem_singleton.1 hg
    exact ⟨hct, hlen _⟩
  · rcases List.mem_cons.1 hg with rfl | hg
    · exact ⟨hct, hlen _⟩
    · obtain rfl := List.mem_singleton.1 hg
      exact ⟨hma, hlen _⟩
  · rcases List.mem_cons.1 hg with rfl | hg
    · exact ⟨hobs, hlen _⟩
    · obtain rfl := List.mem_singleton.1 hg
      exact ⟨hct', hlen _⟩
  · rcases List.mem_cons.1 hg with rfl | hg
    · exact ⟨hobs, hlen _⟩
    rcases List.mem_cons.1 hg with rfl | hg
    · exact ⟨hct', hlen _⟩
    · obtain rfl := List.mem_singleton.1 hg
      exact ⟨hma, hlen _⟩

/-- Options with short gaps and short values take a byte more than their values each. -/
theorem length_writtenOptions {base : ℕ} {os : List CoapOption}
    (h : ∀ g ∈ gapsFrom base os, g.1 < 13 ∧ g.2.length < 13) :
    (writtenOptions base os).length = headSize os := by
  induction os generalizing base with
  | nil => rfl
  | cons o os ih =>
    rw [gapsFrom_cons, List.forall_mem_cons] at h
    rw [writtenOptions_cons, List.length_append, length_writtenOption h.1.1 h.1.2, ih h.2]
    rfl

/-- An answer to a read can be sent. -/
theorem sendable_readHead {code : ℕ} (hpos : 0 < code) (hlt : code < 2 ^ 8) (data : List Byte) :
    Pdu.Sendable { code, options := readHead observe format maxAge, data } where
  code_pos := hpos
  code_lt := hlt
  ascending := by
    have hct : coapOptionObserve ≤ coapOptionContentType := by decide
    have hma : coapOptionContentType ≤ coapOptionMaxage := by decide
    rcases observe with _ | n <;> rcases maxAge with _ | v
    · exact ⟨Nat.zero_le _, trivial⟩
    · exact ⟨Nat.zero_le _, hma, trivial⟩
    · exact ⟨Nat.zero_le _, hct, trivial⟩
    · exact ⟨Nat.zero_le _, hct, hma, trivial⟩
  type_lt o ho := by
    rcases (mem_readHead ho).1 with h | h | h <;> rw [h] <;> decide
  right g hg := by
    obtain ⟨hgap, hlen⟩ := gapsFrom_readHead hg
    exact ⟨by omega, by omega⟩

theorem length_readHead :
    (writtenOptions 0 (readHead observe format maxAge)).length =
      headSize (readHead observe format maxAge) ∧
    headSize (readHead observe format maxAge) ≤ 15 := by
  refine ⟨length_writtenOptions fun g hg => ?_, ?_⟩
  · obtain ⟨hgap, hlen⟩ := gapsFrom_readHead hg
    exact ⟨hgap, by omega⟩
  · have hsize : ∀ m ∈ (readHead observe format maxAge).map fun o => 1 + o.value.length,
        m ≤ 5 := by
      intro m hm
      obtain ⟨o, ho, rfl⟩ := List.mem_map.1 hm
      obtain ⟨-, n, hn⟩ := mem_readHead ho
      have hlen := length_coapEncodeVarBytes_le n
      rw [hn]
      omega
    have hlength : (readHead observe format maxAge).length ≤ 3 := by
      rcases observe with _ | n <;> rcases maxAge with _ | v <;> simp [readHead]
    calc headSize (readHead observe format maxAge)
        ≤ ((readHead observe format maxAge).map fun o => 1 + o.value.length).length • 5 :=
          List.sum_le_card_nsmul _ _ hsize
      _ ≤ 15 := by
          rw [List.length_map, smul_eq_mul]
          omega

/-- The options always fit. -/
theorem room_readHead {token : List Byte} (htoken : token.length ≤ 8) :
    coapHdrSize + token.length + (writtenOptions 0 (readHead observe format maxAge)).length ≤
      coapMaxPduSize := by
  obtain ⟨hlen, hle⟩ := @length_readHead observe format maxAge
  rw [hlen, coapHdrSize, coapMaxPduSize]
  omega

/-- The data arrives if there is room for it and the marker before it. -/
theorem arriving_readHead {code : ℕ} {data : List Byte} (tokenLength : ℕ) :
    Pdu.arriving { code, options := readHead observe format maxAge, data } tokenLength =
      if coapHdrSize + tokenLength + headSize (readHead observe format maxAge) + 1 + data.length ≤
        coapMaxPduSize then data else [] := by
  obtain ⟨hlen, -⟩ := @length_readHead observe format maxAge
  rw [Pdu.arriving, Pdu.wireSize]
  dsimp only
  rw [hlen]
  rcases data with _ | ⟨d, data⟩
  · rw [ite_self, ite_self]
  · rw [encodePayload, if_neg (List.cons_ne_nil _ _), List.length_cons]
    exact if_congr (by omega) rfl rfl

/-- What a client gets of an answer: the options, and the data if that fits. -/
theorem transmit_readHead {past : Byte} {type : ℕ} {id : Byte × Byte} {token : List Byte} {code : ℕ}
    (htoken : token.length ≤ 8) (hpos : 0 < code) (hlt : code < 2 ^ 8) (data : List Byte) :
    transmit past type id token { code, options := readHead observe format maxAge, data } =
      some { code, options := readHead observe format maxAge
             data := if coapHdrSize + token.length + headSize (readHead observe format maxAge) + 1 +
                  data.length ≤ coapMaxPduSize then data else [] } := by
  rw [transmit_of_sendable htoken (sendable_readHead hpos hlt data) (room_readHead htoken),
    arriving_readHead]

end CoapBroker
