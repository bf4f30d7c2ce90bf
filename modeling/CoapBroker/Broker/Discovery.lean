import CoapBroker.Broker.State
import CoapBroker.Libcoap.Block

/-!
# Discovery

`hnd_get_broker`, which answers with the descriptions of the topics that match all
queries of a request, and what it comes to for well-formed queries
(`hndGetBroker_eq`): the descriptions of exactly the matching topics, in the order of the
table, separated by commas.

A description is printed into a buffer that is allocated for it, and whose bytes are
arbitrary before (`junk`); that nothing of them is left in the text is because the size
of the buffer is computed correctly (`length_description`).
-/

namespace CoapBroker

/-! ## The handler -/

/-- A resource that is shown: its URI starts with `ps/` and is longer. -/
def isShown (r : CoapResource) : Bool :=
  r.uri.length > 3 && r.uri.bytes[0]? = some ('p' : Byte) && r.uri.bytes[1]? = some ('s' : Byte) &&
    r.uri.bytes[2]? = some ('/' : Byte)

/-- The loop over the queries, which counts the ones `r` matches; `none` when one of them
    is malformed. -/
def countFound (r : CoapResource) : List CoapOption → ℕ → Option ℕ
  | [], foundQuery => some foundQuery
  | option :: options, foundQuery =>
    match parseOptionURIQuery option.value with
    | some (queryName, queryValue) =>
      match r.findAttr queryName with
      | some tempAttr =>
        if compareString (some tempAttr.value) (some queryValue) then
          countFound r options (foundQuery + 1)
        else countFound r options foundQuery
      | none => countFound r options foundQuery
    | none => none

/-- The text of the buffer `coap_print_link` has printed to. -/
def printedText (junk : ℕ → Byte) (r : CoapResource) : CStr :=
  let responseSize := calculateResourceLF r
  let out := (coapPrintLink r responseSize 0).buf
  let rest := (List.range (responseSize - out.length)).map fun i => junk (out.length + i)
  CStr.read (out ++ rest ++ [0])

/-- The loop over the table, with the number of matching resources and the text so far;
    `none` when a query is malformed. -/
def discoverLoop (junk : CStr → ℕ → Byte) (queries : List CoapOption) :
    List CoapResource → ℕ × Option CStr → Option (ℕ × Option CStr)
  | [], s => some s
  | r :: rs, (counter, data) =>
    if isShown r then
      match countFound r queries 0 with
      | none => none
      | some foundQuery =>
        if queries.length = foundQuery then
          let responseData := printedText (junk r.uri) r
          let data :=
            if counter + 1 = 1 then dynamicConcatenate data responseData
            else dynamicConcatenate (dynamicConcatenate data (CStr.lit ",")) responseData
          discoverLoop junk queries rs (counter + 1, data)
        else discoverLoop junk queries rs (counter, data)
    else discoverLoop junk queries rs (counter, data)

/-- The response with the body `data`: the block that is asked for, or all of it if it
    fits, or else its first block. -/
def bodyResponse (block2 : Option CoapBlock) (room : ℕ) (data : CStr) : Except Fault Pdu :=
  let response := ({} : Pdu).addOption coapOptionContentType
    (coapEncodeVarBytes coapMediatypeApplicationLinkFormat)
  match block2 with
  | some block =>
    match coapWriteBlockOpt block coapOptionBlock2 response room data.length with
    | .ok (block, response) => .ok ((coapAddBlock response data.bytes block).setCode 205)
    | .error res =>
      if res = -2 then .ok (response.respond 400)
      else if res = -1 then .error .assertion
      else .ok (response.respond 500)
  | none =>
    if data.length + 1 ≤ room then .ok ((response.addData data.bytes).setCode 205)
    else
      match coapWriteBlockOpt { szx := 6 } coapOptionBlock2 response room data.length with
      | .ok (block, response) => .ok ((coapAddBlock response data.bytes block).setCode 205)
      | .error _ => .ok ((coapAddBlock response data.bytes { szx := 6 }).setCode 205)

/-- The options of a request that are queries. -/
def uriQueries (request : Request) : List CoapOption :=
  request.options.filter fun o => o.type = coapOptionUriQuery

/-- `hnd_get_broker`, for a request in which `coap_get_block` finds `block2`. -/
def hndGetBroker (b : Broker) (request : Request) (block2 : Option CoapBlock) (room : ℕ)
    (junk : CStr → ℕ → Byte) : Except Fault Pdu :=
  match discoverLoop junk (uriQueries request) b.resources (0, none) with
  | none => .ok (({} : Pdu).respond 400)
  | some (counter, requestedLinkFormatData) =>
    if counter > 0 then
      match requestedLinkFormatData with
      | some data => bodyResponse block2 room data
      | none => .error .nullDeref
    else .ok (({} : Pdu).respond 404)

/-! ## Descriptions -/

/-- The part of a description for an attribute. -/
def attrText (a : CoapAttr) : List Byte :=
  (';' : Byte) :: (a.name.bytes ++ ('=' : Byte) :: a.value.bytes)

/-- The description of a resource. -/
def description (r : CoapResource) : List Byte :=
  ascii "</" ++ r.uri.bytes ++ [('>' : Byte)] ++
    r.linkAttr.flatMap attrText ++ if r.observable then ascii ";obs" else []

section

variable {r : CoapResource}

/-- While there is room, printing appends. -/
theorem PrintState.copy_eq {p : PrintState} {s : List Byte} (hoff : p.offset = 0)
    (hroom : p.buf.length + s.length ≤ p.cap) :
    p.copy s = { p with buf := p.buf ++ s, len := p.len + s.length } := by
  induction s generalizing p with
  | nil => simp [PrintState.copy]
  | cons c s ih =>
    rw [List.length_cons] at hroom
    have hprint : p.print c = { p with buf := p.buf ++ [c], len := p.len + 1 } := by
      rw [PrintState.print, if_pos (by omega : p.buf.length < p.cap), if_pos hoff]
    have hcons : p.copy (c :: s) = (p.print c).copy s := rfl
    rw [hcons, hprint, ih (p := { p with buf := p.buf ++ [c], len := p.len + 1 }) hoff]
    · simp [Nat.add_assoc, Nat.add_comm 1]
    · dsimp only
      rw [List.length_append, List.length_singleton]
      omega

theorem PrintState.print_eq (p : PrintState) (c : Byte) : p.print c = p.copy [c] := rfl

theorem PrintState.copy_copy (p : PrintState) (s t : List Byte) :
    (p.copy s).copy t = p.copy (s ++ t) := by
  rw [PrintState.copy, PrintState.copy, PrintState.copy, List.foldl_append]

theorem foldl_print_attrs (attrs : List CoapAttr) (p : PrintState) :
    attrs.foldl (fun p a =>
      (((p.print ';').copy a.name.bytes).print '=').copy a.value.bytes) p =
      p.copy (attrs.flatMap attrText) := by
  induction attrs generalizing p with
  | nil => rfl
  | cons a attrs ih =>
    rw [List.foldl_cons, ih, List.flatMap_cons, PrintState.print_eq, PrintState.print_eq,
      PrintState.copy_copy, PrintState.copy_copy, PrintState.copy_copy, PrintState.copy_copy]
    simp [attrText]

/-- `coap_print_link` prints the description, for as long as there is room. -/
theorem coapPrintLink_eq_copy (r : CoapResource) (len offset : ℕ) :
    coapPrintLink r len offset = ({ cap := len, offset } : PrintState).copy (description r) := by
  simp only [coapPrintLink, foldl_print_attrs]
  simp only [PrintState.print_eq, PrintState.copy_copy, description]
  split_ifs
  · rfl
  · rw [List.append_nil]
    rfl

/-- The buffer is as long as the description. -/
theorem length_description (r : CoapResource) :
    calculateResourceLF r = (description r).length := by
  have hattrs : ∀ (attrs : List CoapAttr) (n : ℕ),
      attrs.foldl (fun n a => n + (a.name.length + a.value.length + 2)) n =
        n + (attrs.flatMap attrText).length := by
    intro attrs
    induction attrs with
    | nil => simp
    | cons a attrs ih =>
      intro n
      rw [List.foldl_cons, ih, List.flatMap_cons, List.length_append]
      simp only [attrText, CStr.length, List.length_cons, List.length_append]
      omega
  have hbody : (description r).length = 2 + r.uri.length + 1 +
      (r.linkAttr.flatMap attrText).length + if r.observable then 4 else 0 := by
    simp only [description, List.length_append, CStr.length]
    split_ifs <;> rfl
  rw [calculateResourceLF, hattrs, hbody]
  split_ifs <;> omega

/-- The description fits its buffer exactly. -/
theorem coapPrintLink_buf (r : CoapResource) :
    (coapPrintLink r (calculateResourceLF r) 0).buf = description r := by
  rw [coapPrintLink_eq_copy, length_description, PrintState.copy_eq rfl]
  · rfl
  · simp

theorem nul_notMem_description (r : CoapResource) : (0 : Byte) ∉ description r := by
  simp only [description, List.mem_append, List.mem_flatMap, List.mem_cons, not_or, not_exists,
    not_and, List.not_mem_nil, not_false_iff, and_true]
  refine ⟨⟨⟨⟨by decide, r.uri.nul_free⟩, by decide⟩, fun a _ => ?_⟩, ?_⟩
  · simp only [attrText, List.mem_cons, List.mem_append, not_or]
    exact ⟨by decide, a.name.nul_free, by decide, a.value.nul_free⟩
  · split_ifs
    · decide
    · exact List.not_mem_nil

/-- Nothing of the buffer before is left in the text. -/
theorem printedText_bytes (junk : ℕ → Byte) (r : CoapResource) :
    (printedText junk r).bytes = description r := by
  simp only [printedText, coapPrintLink_buf]
  rw [length_description, Nat.sub_self, List.range_zero, List.map_nil, List.append_nil]
  exact CStr.read_append_nul (nul_notMem_description r) []

end

/-! ## Matching topics -/

/-- The resource has every queried attribute, with the queried value. -/
def Matches (queries : List (CStr × CStr)) (r : CoapResource) : Prop :=
  ∀ q ∈ queries, (r.findAttr q.1).map CoapAttr.value = some q.2

instance (queries : List (CStr × CStr)) (r : CoapResource) : Decidable (Matches queries r) :=
  inferInstanceAs (Decidable (∀ q ∈ queries, _))

/-- The resources discovery answers with, in the order of the table. -/
def matching (queries : List (CStr × CStr)) (rs : List CoapResource) : List CoapResource :=
  rs.filter fun r => isShown r ∧ Matches queries r

/-- The number of queries found is that of the queries the resource matches. -/
theorem countFound_eq {options : List CoapOption} {queries : List (CStr × CStr)}
    (h : options.map (fun o => parseOptionURIQuery o.value) = queries.map some) (r : CoapResource)
    (n : ℕ) :
    countFound r options n = some (n +
      queries.countP fun q => (r.findAttr q.1).map CoapAttr.value = some q.2) := by
  induction options generalizing queries n with
  | nil =>
    rw [List.map_nil, eq_comm, List.map_eq_nil_iff] at h
    rw [h]; rfl
  | cons o options ih =>
    rcases queries with _ | ⟨⟨name, value⟩, queries⟩
    · simp at h
    rw [List.map_cons, List.map_cons, List.cons.injEq] at h
    obtain ⟨ho, h⟩ := h
    rw [countFound, ho, List.countP_cons]
    dsimp only
    rcases r.findAttr name with _ | attr
    · rw [if_neg (by simp), Nat.add_zero]
      exact ih h n
    · by_cases hv : attr.value = value
      · simp only [compareString, hv, decide_true, if_true, ih h, Option.map_some,
          Option.some.injEq]
        omega
      · simp only [compareString, hv, decide_false, Bool.false_eq_true, if_false, ih h,
          Option.map_some, Option.some.injEq, Nat.add_zero]

theorem countFound_eq_length_iff {options : List CoapOption} {queries : List (CStr × CStr)}
    (h : options.map (fun o => parseOptionURIQuery o.value) = queries.map some) (r : CoapResource) :
    ∃ n, countFound r options 0 = some n ∧ (options.length = n ↔ Matches queries r) := by
  refine ⟨_, countFound_eq h r 0, ?_⟩
  have hlen : options.length = queries.length := by simpa using congrArg List.length h
  rw [hlen, Nat.zero_add, eq_comm, List.countP_eq_length]
  simp only [decide_eq_true_eq]
  rfl

/-- The descriptions of resources, separated by commas. -/
def descriptions (rs : List CoapResource) : List Byte :=
  [(',' : Byte)].intercalate (rs.map description)

/-- The text for the matching resources so far, `NULL` when there is none. -/
def joined (rs : List CoapResource) : Option CStr :=
  if rs = [] then none else some (CStr.read (descriptions rs))

theorem nul_notMem_descriptions (rs : List CoapResource) : (0 : Byte) ∉ descriptions rs := by
  refine notMem_intercalate (by decide) fun s hs => ?_
  obtain ⟨r, -, rfl⟩ := List.mem_map.1 hs
  exact nul_notMem_description r

/-- Adding the text of one more resource, with a comma unless it is the first. -/
theorem joined_concat (junk : ℕ → Byte) (rs : List CoapResource) (r : CoapResource) :
    (if rs.length + 1 = 1 then dynamicConcatenate (joined rs) (printedText junk r)
      else dynamicConcatenate (dynamicConcatenate (joined rs) (CStr.lit ",")) (printedText junk r)) =
      joined (rs ++ [r]) := by
  have hne : rs ++ [r] ≠ [] := List.append_ne_nil_of_right_ne_nil rs (List.cons_ne_nil r [])
  rw [joined, joined, if_neg hne]
  rcases eq_or_ne rs [] with rfl | hrs
  · have hsingle : descriptions ([] ++ [r]) = (printedText junk r).bytes := by
      rw [List.nil_append, descriptions, List.map_singleton, List.intercalate_singleton,
        printedText_bytes]
    rw [hsingle, CStr.read_bytes]
    rfl
  · have hlen : rs.length + 1 ≠ 1 := fun h => hrs (List.length_eq_zero_iff.1 (by omega))
    have hcomma : (0 : Byte) ∉ descriptions rs ++ (CStr.lit ",").bytes :=
      fun h => (List.mem_append.1 h).elim (nul_notMem_descriptions rs) (CStr.lit ",").nul_free
    have hconcat : descriptions (rs ++ [r]) =
        descriptions rs ++ (CStr.lit ",").bytes ++ description r := by
      rw [descriptions, List.map_append, List.map_singleton,
        intercalate_concat _ (mt List.map_eq_nil_iff.1 hrs), List.append_assoc]
      rfl
    rw [if_neg hrs, if_neg hlen, dynamicConcatenate, dynamicConcatenate, printedText_bytes,
      CStr.read_of_notMem (nul_notMem_descriptions rs), CStr.read_of_notMem hcomma, hconcat]

/-- The loop adds the descriptions of the matching resources ahead. -/
theorem discoverLoop_eq (junk : CStr → ℕ → Byte) {options : List CoapOption}
    {queries : List (CStr × CStr)}
    (h : options.map (fun o => parseOptionURIQuery o.value) = queries.map some)
    (rs found : List CoapResource) :
    discoverLoop junk options rs (found.length, joined found) =
      some ((found ++ matching queries rs).length, joined (found ++ matching queries rs)) := by
  induction rs generalizing found with
  | nil => rw [discoverLoop, matching, List.filter_nil, List.append_nil]
  | cons r rs ih =>
    rw [discoverLoop, matching, List.filter_cons, ← matching]
    by_cases hshown : isShown r = true
    · obtain ⟨n, hn, hmatch⟩ := countFound_eq_length_iff h r
      rw [if_pos hshown, hn]
      dsimp only
      by_cases hm : Matches queries r
      · rw [if_pos (hmatch.2 hm), if_pos (decide_eq_true ⟨hshown, hm⟩), joined_concat,
          ← List.length_singleton (a := r), ← List.length_append, ih, List.append_assoc]
        rfl
      · rw [if_neg (mt hmatch.1 hm), if_neg (by simp [hm]), ih]
    · rw [if_neg hshown, if_neg (by simp [hshown]), ih]

/-- For well-formed queries, the body is made of the descriptions of exactly the matching
    resources; without any, the answer is 4.04. -/
theorem hndGetBroker_eq {request : Request} {queries : List (CStr × CStr)}
    (h : (uriQueries request).map (fun o => parseOptionURIQuery o.value) = queries.map some)
    (b : Broker) (block2 : Option CoapBlock) (room : ℕ) (junk : CStr → ℕ → Byte) :
    hndGetBroker b request block2 room junk =
      if matching queries b.resources = [] then .ok (({} : Pdu).respond 404)
      else bodyResponse block2 room (CStr.read (descriptions (matching queries b.resources))) := by
  have hloop := discoverLoop_eq junk h b.resources []
  rw [hndGetBroker, show ((0, none) : ℕ × Option CStr) = (([] : List CoapResource).length, joined [])
    from rfl, hloop, List.nil_append]
  dsimp only
  rw [joined]
  split_ifs with hpos hnil hnil
  · rw [hnil] at hpos
    exact absurd hpos (lt_irrefl 0)
  · rfl
  · rfl
  · exact absurd (List.length_pos_iff.2 hnil) hpos

/-- The response with a body is sent whatever block is asked for, and is not a 4.04. -/
theorem bodyResponse_ok (block2 : Option CoapBlock) (room : ℕ) (data : CStr) :
    ∃ pdu, bodyResponse block2 room data = .ok pdu ∧ pdu.code ≠ coapResponseCode 404 := by
  rcases block2 with _ | block
  · simp only [bodyResponse]
    split_ifs
    · exact ⟨_, rfl, by rw [Pdu.code_setCode]; decide⟩
    · split <;> exact ⟨_, rfl, by rw [Pdu.code_setCode]; decide⟩
  · simp only [bodyResponse]
    rcases hw : coapWriteBlockOpt block coapOptionBlock2 _ room data.length with res | ⟨block', pdu⟩
    · -- the only negative results are the ones the handler answers
      rcases coapWriteBlockOpt_error hw with rfl | rfl
      · exact ⟨_, rfl, by rw [Pdu.code_respond]; decide⟩
      · exact ⟨_, rfl, by rw [Pdu.code_respond]; decide⟩
    · exact ⟨_, rfl, by rw [Pdu.code_setCode]; decide⟩

theorem isShown_iff (r : CoapResource) :
    isShown r ↔ ascii "ps/" <+: r.uri.bytes ∧ 3 < r.uri.length := by
  have hps : ascii "ps/" = [('p' : Byte), ('s' : Byte), ('/' : Byte)] := rfl
  rw [isShown, hps, CStr.length]
  rcases r.uri.bytes with _ | ⟨a, _ | ⟨b, _ | ⟨c, s⟩⟩⟩
  · simp
  · simp
  · simp
  · simp only [List.length_cons, List.getElem?_cons_zero, List.getElem?_cons_succ, Bool.and_eq_true,
      decide_eq_true_eq, Option.some.injEq, List.cons_prefix_cons, List.nil_prefix, and_true]
    constructor
    · rintro ⟨⟨⟨hlen, rfl⟩, rfl⟩, rfl⟩
      exact ⟨⟨rfl, rfl, rfl⟩, hlen⟩
    · rintro ⟨⟨rfl, rfl, rfl⟩, hlen⟩
      exact ⟨⟨⟨hlen, rfl⟩, rfl⟩, rfl⟩

/-- Discovery is sound and complete. For well-formed queries, the answer is 4.04 exactly if
    no topic matches, and otherwise the body consists of the descriptions of exactly the
    matching topics, each of which is printed whole into a buffer of exactly its size. -/
theorem hndGetBroker_sound_complete (b : Broker) (request : Request)
    (queries : List (CStr × CStr))
    (h : (uriQueries request).map (fun o => parseOptionURIQuery o.value) = queries.map some)
    (block2 : Option CoapBlock) (room : ℕ) (junk : CStr → ℕ → Byte) :
    let found := b.resources.filter fun r =>
      (ascii "ps/" <+: r.uri.bytes ∧ 3 < r.uri.length) ∧ Matches queries r
    (∃ pdu, hndGetBroker b request block2 room junk = .ok pdu ∧
      (pdu.code = coapResponseCode 404 ↔ found = [])) ∧
    (found ≠ [] → ∃ body : CStr,
      body.bytes = [(',' : Byte)].intercalate (found.map description) ∧
      hndGetBroker b request block2 room junk = bodyResponse block2 room body) ∧
    ∀ r, (coapPrintLink r (calculateResourceLF r) 0).buf = description r ∧
      (coapPrintLink r (calculateResourceLF r) 0).len = calculateResourceLF r ∧
      calculateResourceLF r = (description r).length := by
  intro found
  have hfound : found = matching queries b.resources := by
    refine List.filter_congr fun r _ => ?_
    rw [decide_eq_decide, isShown_iff]
  refine ⟨?_, fun hne => ?_, fun r => ⟨coapPrintLink_buf r, ?_, length_description r⟩⟩
  · rw [hndGetBroker_eq h, ← hfound]
    split_ifs with hnil
    · exact ⟨_, rfl, iff_of_true rfl hnil⟩
    · obtain ⟨pdu, hpdu, hcode⟩ := bodyResponse_ok block2 room (CStr.read (descriptions found))
      exact ⟨pdu, hpdu, iff_of_false hcode hnil⟩
  · refine ⟨CStr.read (descriptions found), CStr.read_of_notMem (nul_notMem_descriptions found), ?_⟩
    rw [hndGetBroker_eq h, ← hfound, if_neg hne]
  · rw [coapPrintLink_eq_copy, length_description, PrintState.copy_eq rfl (by simp)]
    simp

/-- A request with the query `rt=a`, for a table with two matching topics. -/
theorem hndGetBroker_sound_complete_two :
    let topic (uri rt : String) : CoapResource :=
      (coapResourceInit (CStr.lit uri) 0).addAttr (CStr.lit "rt") (CStr.lit rt) 0
    let b : Broker := {
      resources := [coapResourceInit brokerPath 0, topic "ps/x" "a", topic "ps/y" "b",
        topic "ps/z" "a"]
      mqttBridge := false }
    let request : Request := { options := [⟨coapOptionUriQuery, ascii "rt=a"⟩], payload := none }
    ∃ body : CStr, body.bytes = ascii "</ps/x>;rt=a,</ps/z>;rt=a" ∧
      hndGetBroker b request none 1000 (fun _ _ => 7) = bodyResponse none 1000 body := by
  intro topic b request
  have h := hndGetBroker_sound_complete b request [(CStr.lit "rt", CStr.lit "a")] (by decide) none
    1000 (fun _ _ => 7)
  obtain ⟨body, hbody, heq⟩ := h.2.1 (by decide)
  exact ⟨body, hbody.trans (by decide), heq⟩

end CoapBroker
