import CoapBroker.System.Replies

/-!
# Options that are not known

A confirmable message with critical options that are not known is answered with 4.02 and a list of
these options, as far as the filter has room for their numbers (`bad_option_listed`). The size of
the response is planned beforehand, and exactly that of the message the format makes of the list;
where this is larger than any message may be, the program ends with a failed assertion.
-/

namespace CoapBroker

/-! ## The unknown options of a message -/

/-- The options of a message, with their numbers. -/
def WireMessage.options (m : WireMessage) : List CoapOption := numbered 0 m.gaps

/-- The numbers of the critical options that are not known, as far as there is room for them. -/
def unknownNumbers (known : OptFilter) (os : List CoapOption) : Finset ℕ :=
  os.foldl (fun s o => if unknownCritical known o.type then (filterSetStep s (.set, o.type)).1 else s)
    ∅

/-- The options that are listed in the response. -/
def WireMessage.listed (known : OptFilter) (m : WireMessage) : List CoapOption :=
  m.options.filter fun o => o.type ∈ unknownNumbers known m.options

/-- The differences of the numbers, in 16 bits. -/
def plannedGaps (base : ℕ) : List CoapOption → List (ℕ × List Byte)
  | [] => []
  | o :: os => ((o.type + 2 ^ 16 - base) % 2 ^ 16, o.value) :: plannedGaps o.type os

theorem mem_plannedGaps {base : ℕ} {os : List CoapOption} {g : ℕ × List Byte}
    (h : g ∈ plannedGaps base os) : g.1 < 2 ^ 16 ∧ ∃ o ∈ os, g.2 = o.value := by
  induction os generalizing base with
  | nil => exact absurd h List.not_mem_nil
  | cons o os ih =>
    rcases List.mem_cons.1 h with rfl | h
    · exact ⟨Nat.mod_lt _ (by norm_num), o, List.mem_cons_self, rfl⟩
    · obtain ⟨hlt, o', ho', hvalue⟩ := ih h
      exact ⟨hlt, o', List.mem_cons_of_mem _ ho', hvalue⟩

theorem exists_gap_of_mem_numbered {t : ℕ} {gaps : List (ℕ × List Byte)} {o : CoapOption}
    (h : o ∈ numbered t gaps) : ∃ g ∈ gaps, o.value = g.2 := by
  induction gaps generalizing t with
  | nil => exact absurd h List.not_mem_nil
  | cons g gaps ih =>
    rcases List.mem_cons.1 h with rfl | h
    · exact ⟨g, List.mem_cons_self, rfl⟩
    · obtain ⟨g', hg', hvalue⟩ := ih h
      exact ⟨g', List.mem_cons_of_mem _ hg', hvalue⟩

/-- The response that lists the unknown options. -/
def WireMessage.badOption (known : OptFilter) (m : WireMessage) : WireMessage where
  version := coapDefaultVersion
  type := coapMessageAck
  code := UInt8.ofNat (coapResponseCode 402)
  id := m.id
  token := m.token
  gaps := plannedGaps 0 (m.listed known)
  payload := ascii "Bad Option"
  version_lt := coapDefaultVersion_lt
  type_lt := coapMessageAck_lt
  token_le := m.token_le
  encodable g hg := by
    obtain ⟨hlt, o, ho, hvalue⟩ := mem_plannedGaps hg
    obtain ⟨g', hg', hvalue'⟩ := exists_gap_of_mem_numbered (List.mem_of_mem_filter ho)
    refine ⟨hlt.trans (by norm_num), ?_⟩
    rw [hvalue, hvalue']
    exact (m.encodable g' hg').2
  empty h := absurd h (by decide)

/-! ## The filter -/

theorem coapOptionFilterGet_eq {f : OptFilter} (hf : f.Good) (type : ℕ) :
    coapOptionFilterGet f type = decide (type ∈ f.elems) := by
  have hget := congrArg Prod.snd (hf.op type .get).2
  rw [coapOptionFilterGet, hget, filterSetStep]
  by_cases h : type ∈ f.elems
  · rw [if_pos h, decide_eq_true h]
  · rw [if_neg h, if_neg (fun h => by cases h.1), decide_eq_false h]

section

variable {known : OptFilter} {past : Byte} {m : WireMessage} {pdu : CoapPdu}

/-- The loop over the options finds out whether there are unknown ones, and which. -/
theorem checkCritical_foldl {os : List CoapOption} {ok : Bool} {f : OptFilter} {s : Finset ℕ}
    (hf : f.Good) (hs : f.elems = s) :
    let res := os.foldl (fun s o => if unknownCritical known o.type then
      (false, (coapOptionFilterOp s.2 o.type .set).1) else s) (ok, f)
    (res.1 = false ↔ ok = false ∨ ∃ o ∈ os, unknownCritical known o.type = true) ∧ res.2.Good ∧
      res.2.elems = os.foldl (fun s o => if unknownCritical known o.type then
        (filterSetStep s (.set, o.type)).1 else s) s := by
  induction os generalizing ok f s with
  | nil => exact ⟨by simp, hf, hs⟩
  | cons o os ih =>
    intro res
    by_cases ho : unknownCritical known o.type = true
    · obtain ⟨hgood, helems⟩ := hf.op o.type .set
      have h := @ih false (coapOptionFilterOp f o.type .set).1 (filterSetStep s (.set, o.type)).1
        hgood (by rw [← hs, ← helems])
      have hres : res = os.foldl (fun s o => if unknownCritical known o.type then
          (false, (coapOptionFilterOp s.2 o.type .set).1) else s)
          (false, (coapOptionFilterOp f o.type .set).1) := by
        dsimp only [res]
        rw [List.foldl_cons, if_pos ho]
      rw [hres, List.foldl_cons, if_pos ho]
      refine ⟨?_, h.2⟩
      rw [h.1]
      simp [ho]
    · have h := @ih ok f s hf hs
      have hres : res = os.foldl (fun s o => if unknownCritical known o.type then
          (false, (coapOptionFilterOp s.2 o.type .set).1) else s) (ok, f) := by
        dsimp only [res]
        rw [List.foldl_cons, if_neg ho]
      rw [hres, List.foldl_cons, if_neg ho]
      refine ⟨?_, h.2⟩
      rw [h.1]
      simp [ho]

theorem coapOptionCheckCritical_eq (hsize : m.bytes.length ≤ coapMaxPduSize) :
    ((coapOptionCheckCritical past known (m.toPdu pdu)).1 = false ↔
      ∃ o ∈ m.options, unknownCritical known o.type = true) ∧
    (coapOptionCheckCritical past known (m.toPdu pdu)).2.Good ∧
    (coapOptionCheckCritical past known (m.toPdu pdu)).2.elems =
      unknownNumbers known m.options := by
  have hempty : OptFilter.clear.elems = ∅ := by
    rw [OptFilter.elems, OptFilter.elems_clear.1, OptFilter.elems_clear.2, Finset.union_empty]
  have hoptions : (m.toPdu pdu).iterate past none = m.options := by
    rw [iterate_none hsize, ← numbered_eq]
    rfl
  obtain ⟨hok, hgood, helems⟩ := @checkCritical_foldl known m.options true _ _
    OptFilter.good_clear hempty
  rw [coapOptionCheckCritical, hoptions]
  exact ⟨hok.trans (or_iff_right (by decide)), hgood, helems⟩

theorem mem_filterSetStep {s : Finset ℕ} {op : FilterOp} {n t : ℕ}
    (h : t ∈ (filterSetStep s (op, n)).1) : t ∈ s ∨ t = n := by
  simp only [filterSetStep] at h
  generalize (if isLongOption n = true then coapOptFilterLong else coapOptFilterShort) = room at h
  split_ifs at h
  · exact .inl (Finset.mem_of_mem_erase h)
  · exact .inl h
  · exact (Finset.mem_insert.1 h).symm
  · exact .inl h

/-- Only unknown critical options are listed. -/
theorem unknownCritical_of_mem {os : List CoapOption} {t : ℕ} (h : t ∈ unknownNumbers known os) :
    unknownCritical known t = true := by
  suffices hall : ∀ s : Finset ℕ, t ∈ os.foldl (fun s o => if unknownCritical known o.type then
      (filterSetStep s (.set, o.type)).1 else s) s → t ∈ s ∨ unknownCritical known t = true from
    (hall ∅ h).resolve_left (Finset.notMem_empty t)
  clear h
  induction os with
  | nil => exact fun s h => .inl h
  | cons o os ih =>
    intro s h
    rcases ih _ h with h | h
    · dsimp only at h
      split_ifs at h with ho
      · rcases mem_filterSetStep h with h | rfl
        · exact .inl h
        · exact .inr ho
      · exact .inl h
    · exact .inr h

/-- The filter of the response lets these options pass. -/
theorem passes_listed (hsize : m.bytes.length ≤ coapMaxPduSize) (type : ℕ) :
    OptIterator.Passes (some (coapOptionFilterOp
      (coapOptionCheckCritical past known (m.toPdu pdu)).2 coapOptionContentType .clear).1) type =
        decide (type ∈ unknownNumbers known m.options) := by
  obtain ⟨-, hgood, helems⟩ := @coapOptionCheckCritical_eq known past m pdu hsize
  obtain ⟨hgood', helems'⟩ := hgood.op coapOptionContentType .clear
  have hnot : coapOptionContentType ∉ unknownNumbers known m.options := fun h => by
    have hodd := unknownCritical_of_mem h
    rw [unknownCritical, decide_eq_true_eq] at hodd
    exact absurd hodd.1 (by decide)
  have hsame : (coapOptionFilterOp (coapOptionCheckCritical past known (m.toPdu pdu)).2
      coapOptionContentType .clear).1.elems = unknownNumbers known m.options := by
    have h := congrArg Prod.fst helems'
    rw [helems, filterSetStep, if_neg hnot, if_neg (fun h => by cases h.1)] at h
    exact h
  rw [OptIterator.Passes, coapOptionFilterGet_eq hgood', hsame]

end

/-! ## The plan -/

section

variable {past : Byte}

/-- What is planned for an option is what the format needs for it. -/
theorem length_encodeOption_eq (delta : ℕ) (value : List Byte) :
    (encodeOption delta value).length =
      (if delta < 13 then 1 else if delta < 269 then 2 else 3) + value.length +
        (if (encodeNumber value.length).1 = 14 then 2
          else if (encodeNumber value.length).1 = 13 then 1 else 0) := by
  have hdelta : 1 + (encodeNumber delta).2.length =
      if delta < 13 then 1 else if delta < 269 then 2 else 3 := by
    rw [encodeNumber]
    split_ifs <;> rfl
  rw [encodeOption, encodeHeader, ← hdelta, ← length_encodeNumber]
  simp only [List.length_append, List.length_cons]
  omega

/-- The options that the filter lets pass, as they stand in the message. -/
theorem rawOptionsFrom_spec {n t : ℕ} {gaps : List (ℕ × List Byte)} {rest : List Byte}
    {filter : Option OptFilter} (hn : gaps.length < n)
    (hgaps : ∀ g ∈ gaps, Encodable g ∧ g.2.length < 2 ^ 16) (hrest : AtEnd rest) :
    let raw := rawOptionsFrom past n { rest := encodeOptions gaps ++ rest, type := t, filter }
    let os := (numbered t gaps).filter fun o => OptIterator.Passes filter o.type
    (raw.map fun x => (⟨x.2, ((coapOptValue past x.1).getD []).take (coapOptLength past x.1)⟩ :
      CoapOption)) = os ∧
    ∀ base, optionsSize past base raw = (encodeOptions (plannedGaps base os)).length := by
  induction gaps generalizing n t with
  | nil =>
    obtain ⟨n, rfl⟩ := Nat.exists_eq_succ_of_ne_zero (Nat.ne_of_gt hn)
    rw [rawOptionsFrom, coapOptionNext, if_pos (.inr hrest)]
    exact ⟨rfl, fun _ => rfl⟩
  | cons g gaps ih =>
    obtain ⟨⟨hg, hshort⟩, hgaps⟩ := List.forall_mem_cons.1 hgaps
    rw [List.length_cons] at hn
    obtain ⟨n, rfl⟩ := Nat.exists_eq_succ_of_ne_zero (Nat.ne_of_gt (Nat.zero_lt_of_lt hn))
    rw [numbered, List.filter_cons, rawOptionsFrom, coapOptionNext_encodeOptions hg]
    dsimp only
    -- an option that does not pass is skipped in the same step of the iterator
    split_ifs with hpass
    · obtain ⟨hmap, hplan⟩ := @ih n ((t + g.1) % 2 ^ 16) (Nat.lt_of_succ_lt_succ hn) hgaps
      obtain ⟨-, hlen, hhalf⟩ :=
        @accessors_encodeOption past g.1 g.2 hshort (encodeOptions gaps ++ rest)
      refine ⟨?_, fun base => ?_⟩
      · rw [List.map_cons, coapOptValue_encodeOption hshort, hmap]
      · rw [optionsSize, plannedGaps, encodeOptions_cons, List.length_append, hlen, hhalf, hplan,
          length_encodeOption_eq]
    · have hsame := @ih (n + 1) ((t + g.1) % 2 ^ 16) (Nat.lt_of_succ_lt hn) hgaps
      rw [rawOptionsFrom] at hsame
      exact hsame

variable {known : OptFilter} {m : WireMessage} {pdu : CoapPdu}

/-- The options that are copied to the response, and the space that is planned for them. -/
theorem rawOptions_listed (hsize : m.bytes.length ≤ coapMaxPduSize) :
    let raw := (m.toPdu pdu).rawOptions past (coapOptionFilterOp
      (coapOptionCheckCritical past known (m.toPdu pdu)).2 coapOptionContentType .clear).1
    (raw.map fun x => (⟨x.2, ((coapOptValue past x.1).getD []).take (coapOptLength past x.1)⟩ :
      CoapOption)) = m.listed known ∧
    optionsSize past 0 raw = (encodeOptions (plannedGaps 0 (m.listed known))).length := by
  have hbody : m.body.length ≤ coapMaxPduSize := by
    rw [WireMessage.bytes] at hsize
    simp only [List.length_cons, List.length_append] at hsize
    omega
  have hlen : (encodeOptions m.gaps).length ≤ m.body.length := by
    rw [WireMessage.body, List.length_append]
    exact Nat.le_add_right _ _
  have hgaps := length_le_encodeOptions m.gaps
  have hlisted : (m.options.filter fun o => OptIterator.Passes (some (coapOptionFilterOp
      (coapOptionCheckCritical past known (m.toPdu pdu)).2 coapOptionContentType .clear).1)
        o.type) = m.listed known :=
    List.filter_congr fun o _ => passes_listed hsize o.type
  rw [← hlisted]
  intro raw
  have hraw : raw = rawOptionsFrom past (m.body.length + 1) { rest := m.body, type := 0
                                                              filter := some (coapOptionFilterOp
      (coapOptionCheckCritical past known (m.toPdu pdu)).2 coapOptionContentType .clear).1 } := by
    dsimp only [raw, CoapPdu.rawOptions]
    have heq : (m.toPdu pdu).body = m.body := rfl
    rw [coapOptionIteratorInit, heq]
    -- without a body the iterator is bad from the beginning
    by_cases hnil : m.body = []
    · rw [if_pos hnil, hnil, rawOptionsFrom, rawOptionsFrom, coapOptionNext, coapOptionNext,
        if_pos (.inl rfl), if_pos (.inr (.inl rfl))]
    · rw [if_neg hnil]
  rw [hraw]
  obtain ⟨hmap, hplan⟩ := @rawOptionsFrom_spec past (m.body.length + 1) 0 m.gaps
    (encodePayload m.payload) (some (coapOptionFilterOp
      (coapOptionCheckCritical past known (m.toPdu pdu)).2 coapOptionContentType .clear).1)
    (by omega) (fun g hg => ⟨m.encodable g hg, by
      have h := hgaps.2 g hg
      rw [coapMaxPduSize] at hbody
      omega⟩) (atEnd_encodePayload m.payload)
  exact ⟨hmap, hplan 0⟩

/-- The size that is planned is that of the response of the format. -/
theorem errorSize_badOption (hsize : m.bytes.length ≤ coapMaxPduSize) :
    errorSize past (m.toPdu pdu) (coapResponseCode 402)
      (coapOptionCheckCritical past known (m.toPdu pdu)).2 = (m.badOption known).bytes.length := by
  rw [errorSize, (rawOptions_listed hsize).2, WireMessage.bytes, WireMessage.body]
  have hphrase : coapResponsePhrase (coapResponseCode 402) = ascii "Bad Option" := by decide
  have htoken : (m.toPdu pdu).token = m.token := rfl
  have hpayload : encodePayload (m.badOption known).payload =
      coapPayloadStart :: ascii "Bad Option" := rfl
  have hgaps : (m.badOption known).gaps = plannedGaps 0 (m.listed known) := rfl
  have htoken' : (m.badOption known).token = m.token := rfl
  rw [hphrase, htoken, hpayload, hgaps, htoken', if_neg (by decide), coapHdrSize]
  simp only [List.length_cons, List.length_append]
  omega

end

/-! ## The response -/

/-- The differences of ascending numbers are those that are planned. -/
theorem plannedGaps_eq {base : ℕ} {os : List CoapOption}
    (hasc : AscendingFrom base (os.map fun o => (o.type, o.value)))
    (hos : ∀ o ∈ os, o.type < 2 ^ 16) : plannedGaps base os = gapsFrom base os := by
  induction os generalizing base with
  | nil => rfl
  | cons o os ih =>
    obtain ⟨hle, hasc⟩ := hasc
    obtain ⟨htype, hos⟩ := List.forall_mem_cons.1 hos
    have hdelta : (o.type + 2 ^ 16 - base) % 2 ^ 16 = o.type - base := by omega
    rw [plannedGaps, gapsFrom_cons, ih hasc hos, hdelta]

section

variable {past : Byte} {known : OptFilter} {m : WireMessage} {pdu : CoapPdu}

/-- The options of a message whose numbers are of 16 bits are in order. -/
theorem WireMessage.listed_ascending (hnumbers : lastNumber 0 (absolute 0 m.gaps) < 2 ^ 16) :
    AscendingFrom 0 ((m.listed known).map fun o => (o.type, o.value)) ∧
      ∀ o ∈ m.listed known, o.type < 2 ^ 16 := by
  have hall := le_lastNumber (ascendingFrom_absolute 0 m.gaps)
  have hoptions : (m.options.map fun o => (o.type, o.value)) = absolute 0 m.gaps := by
    have heq : m.options = numbered (0 % 2 ^ 16) m.gaps := rfl
    rw [heq, numbered_eq, List.map_map]
    refine (List.map_congr_left fun x hx => ?_).trans (List.map_id _)
    rw [Function.comp_apply, Nat.mod_eq_of_lt ((hall.2 x hx).trans_lt hnumbers)]
    rfl
  have hasc := ascendingFrom_absolute 0 m.gaps
  rw [← hoptions] at hasc
  refine ⟨hasc.sublist ((List.filter_sublist).map _), fun o ho => ?_⟩
  have hmem : (o.type, o.value) ∈ absolute 0 m.gaps := by
    rw [← hoptions]
    exact List.mem_map_of_mem (List.mem_of_mem_filter ho)
  exact (hall.2 _ hmem).trans_lt hnumbers

/-- The options of the response are those that are listed. -/
theorem WireMessage.options_badOption (hnumbers : lastNumber 0 (absolute 0 m.gaps) < 2 ^ 16) :
    (m.badOption known).options = m.listed known := by
  obtain ⟨hasc, hos⟩ := @WireMessage.listed_ascending known m hnumbers
  have hgaps : (m.badOption known).gaps = gapsFrom 0 (m.listed known) := plannedGaps_eq hasc hos
  rw [options, hgaps, numbered_gapsFrom hasc hos]

/-- The response that is put together is that of the format. -/
theorem coapNewErrorResponse_badOption (hsize : m.bytes.length ≤ coapMaxPduSize)
    (hcon : m.type = coapMessageCon) (hnumbers : lastNumber 0 (absolute 0 m.gaps) < 2 ^ 16)
    (hright : ∀ g ∈ (m.badOption known).gaps, WrittenRight g)
    (hfits : (m.badOption known).bytes.length ≤ coapMaxPduSize) :
    ∃ reply, coapNewErrorResponse past (m.toPdu pdu) (coapResponseCode 402)
      (coapOptionCheckCritical past known (m.toPdu pdu)).2 = .ok (some reply) ∧
        reply.bytes = (m.badOption known).bytes := by
  obtain ⟨hasc, hos⟩ := @WireMessage.listed_ascending known m hnumbers
  obtain ⟨hmap, -⟩ := @rawOptions_listed past known m pdu hsize
  have hplan := @errorSize_badOption past known m pdu hsize
  have hgaps : (m.badOption known).gaps = gapsFrom 0 (m.listed known) := plannedGaps_eq hasc hos
  rw [hgaps] at hright
  have hwritten := writtenOptions_eq hright
  have hlen : (m.badOption known).bytes.length =
      coapHdrSize + m.token.length + (writtenOptions 0 (m.listed known)).length +
        (ascii "Bad Option").length + 1 := by
    have hpayload : encodePayload (m.badOption known).payload =
        coapPayloadStart :: ascii "Bad Option" := rfl
    have htoken : (m.badOption known).token = m.token := rfl
    rw [WireMessage.bytes, WireMessage.body, hgaps, ← hwritten, hpayload, htoken, coapHdrSize]
    simp only [List.length_cons, List.length_append]
    omega
  generalize (m.badOption known).bytes.length = size at hplan hfits hlen
  obtain ⟨pdu₁, hpdu₁⟩ : ∃ pdu₁ : CoapPdu, pdu₁ =
      ⟨size, coapDefaultVersion, responseType m.type % 4, coapResponseCode 402 % 2 ^ 8, m.id, m.token,
        [], 0, none⟩ := ⟨_, rfl⟩
  have hempty : pdu₁.length = coapHdrSize + m.token.length := by rw [hpdu₁]; rfl
  have hmax : pdu₁.maxSize = size := by rw [hpdu₁]
  have hdelta : pdu₁.maxDelta = 0 := by rw [hpdu₁]
  -- the options and the phrase fit
  have hall : (addOptions pdu₁ (m.listed known)).2 = m.listed known :=
    addOptions_eq (by rw [hmax]; exact hfits) hos (by rw [hdelta]; exact hasc)
      (by rw [hdelta, hempty, hmax]; omega)
  obtain ⟨hadded, -⟩ := @addOptions_spec pdu₁ (m.listed known) (by rw [hmax]; exact hfits)
    (by rw [hempty, hmax]; omega) hos (by rw [hpdu₁])
  rw [hall, hdelta] at hadded
  obtain ⟨reply, hdata, hversion, htype, hcode, hid, htoken, hbody⟩ : ∃ reply : CoapPdu,
      coapAddData (addOptions pdu₁ (m.listed known)).1 (ascii "Bad Option") = .ok (reply, true) ∧
        reply.version = 1 ∧ reply.type = coapMessageAck ∧ reply.code = coapResponseCode 402 ∧
        reply.id = m.id ∧ reply.token = m.token ∧
        reply.body = writtenOptions 0 (m.listed known) ++ coapPayloadStart :: ascii "Bad Option" := by
    rw [hadded, hpdu₁, coapAddData, if_neg (by exact Bool.false_ne_true), if_neg (by decide), if_neg]
    · refine ⟨_, rfl, rfl, ?_, rfl, rfl, rfl, rfl⟩
      rw [hcon]
      rfl
    · simp only [CoapPdu.length, List.nil_append]
      omega
  have hphrase : coapResponsePhrase (coapResponseCode 402) = ascii "Bad Option" := by decide
  refine ⟨reply, ?_, ?_⟩
  · have htoken₁ : coapAddToken ⟨size, coapDefaultVersion, responseType m.type % 4,
        coapResponseCode 402 % 2 ^ 8, m.id, [], [], 0, none⟩ m.token = some pdu₁ := by
      have htoken8 := m.token_le
      rw [coapAddToken, if_neg, hpdu₁]
      rw [coapHdrSize] at hlen
      dsimp only
      omega
    have hsame : (m.toPdu pdu).type = m.type ∧ (m.toPdu pdu).id = m.id ∧
        (m.toPdu pdu).token = m.token := ⟨rfl, rfl, rfl⟩
    rw [errorSize] at hplan
    rw [coapNewErrorResponse]
    dsimp only
    rw [hplan, coapPduInit, if_neg (not_lt.2 hfits), if_neg (by omega), hsame.1, hsame.2.1, hsame.2.2]
    dsimp only
    rw [htoken₁]
    dsimp only
    rw [hmap, hphrase, hdata]
    rfl
  · rw [CoapPdu.bytes_eq hversion (by rw [htype]; decide) (by rw [htoken]; exact m.token_le), htype,
      hcode, hid, htoken, hbody, WireMessage.bytes, WireMessage.body, hgaps, ← hwritten]
    rfl

/-- A confirmable message with unknown critical options is answered with the response that lists
    them, which changes nothing; if this is larger than any message, the program ends. -/
theorem bad_option_listed {σ ω : Type} {srv : Server σ ω} (s : σ × List Sent) (peer : CoapAddress)
    (hversion : m.version = coapDefaultVersion) (hcon : m.type = coapMessageCon)
    (hsize : m.bytes.length ≤ coapMaxPduSize)
    (hnumbers : lastNumber 0 (absolute 0 m.gaps) < 2 ^ 16)
    (hunknown : ∃ o ∈ m.options, unknownCritical srv.knownOptions o.type = true)
    (hright : ∀ g ∈ (m.badOption srv.knownOptions).gaps, WrittenRight g) :
    (m.badOption srv.knownOptions).options = m.listed srv.knownOptions ∧
    ((m.badOption srv.knownOptions).bytes.length ≤ coapMaxPduSize →
      ∃ reply, coapHandleMessage srv past s peer m.bytes = .ok (s, some reply, []) ∧
        reply.bytes = (m.badOption srv.knownOptions).bytes) ∧
    (coapMaxPduSize < (m.badOption srv.knownOptions).bytes.length →
      coapHandleMessage srv past s peer m.bytes = .error .assertion) := by
  rw [coapHandleMessage_bytes hversion hsize]
  generalize hpdu : m.toPdu { maxSize := m.bytes.length, type := 0, code := 0, id := (0, 0) } = pdu
  have htype : pdu.type = coapMessageCon := by rw [← hpdu]; exact hcon
  have hbad : (coapOptionCheckCritical past srv.knownOptions pdu).1 = false := by
    rw [← hpdu]
    exact (coapOptionCheckCritical_eq hsize).1.2 hunknown
  rw [coapDispatch, if_neg (by rw [htype]; decide), if_neg (by rw [htype]; decide),
    if_neg (by rw [htype]; decide), if_pos hbad]
  refine ⟨m.options_badOption hnumbers, ?_, ?_⟩
  · intro hfits
    obtain ⟨reply, hok, hbytes⟩ := @coapNewErrorResponse_badOption past srv.knownOptions m
      { maxSize := m.bytes.length, type := 0, code := 0, id := (0, 0) } hsize hcon hnumbers hright
      hfits
    refine ⟨reply, ?_, hbytes⟩
    rw [← hpdu, hok]
    rfl
  · intro hlarge
    -- more is planned for than there is room: the assertion fails
    rcases @coapNewErrorResponse_cases past pdu (by rw [← hpdu]; exact m.token_le)
      (coapResponseCode 402) (coapOptionCheckCritical past srv.knownOptions pdu).2 with
      ⟨-, herror⟩ | ⟨hle, -⟩
    · rw [herror]
      rfl
    · rw [← hpdu, errorSize_badOption hsize] at hle
      exact absurd hle (not_le.2 hlarge)

/-- A confirmable request with an option of number 9. -/
def odd9 : WireMessage where
  version := coapDefaultVersion
  type := coapMessageCon
  code := 1
  id := (0x12, 0x34)
  token := [7]
  gaps := [(9, [1, 2])]
  payload := []
  version_lt := coapDefaultVersion_lt
  type_lt := coapMessageCon_lt
  token_le := by decide
  encodable g hg := by
    rw [List.mem_singleton.1 hg]
    exact ⟨by norm_num, by norm_num⟩
  empty h := absurd h (by decide)

theorem bad_option_listed_odd9 :
    (odd9.badOption OptFilter.clear).options = odd9.listed OptFilter.clear ∧
    ((odd9.badOption OptFilter.clear).bytes.length ≤ coapMaxPduSize →
      ∃ reply, coapHandleMessage (brokerServer Lookup.latest (fun _ _ => true) 0 fun _ _ => 0) 0
        (boot true false, []) [] odd9.bytes = .ok ((boot true false, []), some reply, []) ∧
          reply.bytes = (odd9.badOption OptFilter.clear).bytes) ∧
    (coapMaxPduSize < (odd9.badOption OptFilter.clear).bytes.length →
      coapHandleMessage (brokerServer Lookup.latest (fun _ _ => true) 0 fun _ _ => 0) 0
        (boot true false, []) [] odd9.bytes = .error .assertion) :=
  @bad_option_listed 0 odd9 Broker Output (brokerServer Lookup.latest (fun _ _ => true) 0 fun _ _ => 0)
    (boot true false, []) [] rfl rfl (by decide) (by decide)
    ⟨⟨9, [1, 2]⟩, by decide, by decide⟩ (by decide)

end

end CoapBroker
