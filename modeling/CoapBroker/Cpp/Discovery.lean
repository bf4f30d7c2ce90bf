import CoapBroker.Broker.Discovery
import CoapBroker.Cpp.Handlers

/-!
# Discovery in the C++ broker

`BrokerResource::hnd_get_broker`, which has the body of the C handler but for the text it puts
between two descriptions: the comma is in a local variable `temp` of type `char`, and its
address is handed over as if a string began there. What is concatenated is the comma with the
bytes that follow it in memory, up to the first `NUL`. They are a parameter here (`following`),
with the number of the match they are read for.

The bodies of the two brokers are the same exactly when no byte but `NUL` follows the variable
whenever a second or later match is added (`discovery_bodies_agree_iff`).
-/

namespace CoapBroker.Cpp

/-! ## The handler -/

/-- The text at the address of `temp`. -/
def tempText (following : List Byte) : CStr := CStr.read ((',' : Byte) :: following)

/-- The loop over the table, with the number of matching resources and the text so far;
    `none` when a query is malformed. -/
def discoverLoop (junk : CStr → ℕ → Byte) (following : ℕ → List Byte)
    (queries : List CoapOption) : List CoapResource → ℕ × Option CStr → Option (ℕ × Option CStr)
  | [], s => some s
  | r :: rs, (counter, data) =>
    if isShown r then
      match countFound r queries 0 with
      | none => none
      | some foundQuery =>
        if queries.length = foundQuery then
          let responseData := printedText (junk r.uri) r
          let data :=
            if counter + 1 = 1 then dynamicConcatenate data responseData
            else dynamicConcatenate
              (dynamicConcatenate data (tempText (following (counter + 1)))) responseData
          discoverLoop junk following queries rs (counter + 1, data)
        else discoverLoop junk following queries rs (counter, data)
    else discoverLoop junk following queries rs (counter, data)

/-- `hnd_get_broker`, for a request in which `coap_get_block` finds `block2`. -/
def hndGetBroker (t : ResourceTable) (request : Request) (block2 : Option CoapBlock) (room : ℕ)
    (junk : CStr → ℕ → Byte) (following : ℕ → List Byte) : Except Fault Pdu :=
  match discoverLoop junk following (uriQueries request) t (0, none) with
  | none => .ok (({} : Pdu).respond 400)
  | some (counter, requestedLinkFormatData) =>
    if counter > 0 then
      match requestedLinkFormatData with
      | some data => bodyResponse block2 room data
      | none => .error .nullDeref
    else .ok (({} : Pdu).respond 404)

section

variable {t : ResourceTable} {request : Request} {block2 : Option CoapBlock} {room : ℕ}
  {junk : CStr → ℕ → Byte} {following : ℕ → List Byte}

theorem hndGetBroker_of_malformed
    (h : discoverLoop junk following (uriQueries request) t (0, none) = none) :
    hndGetBroker t request block2 room junk following = .ok (({} : Pdu).respond 400) := by
  rw [hndGetBroker, h]

theorem hndGetBroker_of_found {counter : ℕ} {body : CStr} (hpos : 0 < counter)
    (h : discoverLoop junk following (uriQueries request) t (0, none) = some (counter, some body)) :
    hndGetBroker t request block2 room junk following = bodyResponse block2 room body := by
  rw [hndGetBroker, h]
  exact if_pos hpos

end

/-! ## The text -/

/-- The descriptions of the resources from the `k`-th match on, each with its separator before
    it. -/
def separated (following : ℕ → List Byte) : ℕ → List CoapResource → List Byte
  | _, [] => []
  | k, r :: rs =>
    (tempText (following k)).bytes ++ description r ++ separated following (k + 1) rs

/-- The text for the matching resources, `NULL` when there is none. -/
def assembled (following : ℕ → List Byte) : List CoapResource → Option CStr
  | [] => none
  | r :: rs => some (CStr.read (description r ++ separated following 2 rs))

theorem tempText_bytes (following : List Byte) :
    (tempText following).bytes = (',' : Byte) :: (CStr.read following).bytes := rfl

variable {following : ℕ → List Byte}

theorem separated_concat (k : ℕ) (rs : List CoapResource) (r : CoapResource) :
    separated following k (rs ++ [r]) = separated following k rs ++
      (tempText (following (k + rs.length))).bytes ++ description r := by
  induction rs generalizing k with
  | nil => simp [separated]
  | cons x rs ih =>
    have hk : k + 1 + rs.length = k + (x :: rs).length := by
      rw [List.length_cons]
      omega
    rw [List.cons_append, separated, separated, ih, hk]
    simp only [List.append_assoc]

theorem nul_notMem_separated (k : ℕ) (rs : List CoapResource) :
    (0 : Byte) ∉ separated following k rs := by
  induction rs generalizing k with
  | nil => exact List.not_mem_nil
  | cons r rs ih =>
    simp only [separated, List.mem_append, not_or]
    exact ⟨⟨(tempText _).nul_free, nul_notMem_description r⟩, ih (k + 1)⟩

theorem nul_notMem_assembled (r : CoapResource) (rs : List CoapResource) :
    (0 : Byte) ∉ description r ++ separated following 2 rs :=
  fun h => (List.mem_append.1 h).elim (nul_notMem_description r) (nul_notMem_separated 2 rs)

/-- Adding the text of one more resource. -/
theorem assembled_concat (junk : ℕ → Byte) (rs : List CoapResource) (r : CoapResource) :
    (if rs.length + 1 = 1 then dynamicConcatenate (assembled following rs) (printedText junk r)
      else dynamicConcatenate (dynamicConcatenate (assembled following rs)
        (tempText (following (rs.length + 1)))) (printedText junk r)) =
      assembled following (rs ++ [r]) := by
  rcases rs with _ | ⟨x, rs⟩
  · have hsingle : description r ++ separated following 2 [] = (printedText junk r).bytes := by
      rw [separated, List.append_nil, printedText_bytes]
    rw [List.nil_append, assembled, assembled, hsingle, CStr.read_bytes]
    rfl
  · have hlen : (x :: rs).length + 1 ≠ 1 := by simp
    have hk : 2 + rs.length = (x :: rs).length + 1 := by
      rw [List.length_cons]
      omega
    have hnul : (0 : Byte) ∉ description x ++ separated following 2 rs := nul_notMem_assembled x rs
    have hsep : (0 : Byte) ∉ description x ++ separated following 2 rs ++
        (tempText (following ((x :: rs).length + 1))).bytes :=
      fun h => (List.mem_append.1 h).elim hnul (tempText _).nul_free
    rw [if_neg hlen, assembled, dynamicConcatenate, dynamicConcatenate, CStr.read_of_notMem hnul,
      CStr.read_of_notMem hsep, printedText_bytes, List.cons_append, assembled, separated_concat, hk]
    simp only [List.append_assoc]

/-- The loop adds the descriptions of the matching resources ahead. -/
theorem discoverLoop_eq (junk : CStr → ℕ → Byte) (following : ℕ → List Byte)
    {options : List CoapOption} {queries : List (CStr × CStr)}
    (h : options.map (fun o => parseOptionURIQuery o.value) = queries.map some)
    (rs found : List CoapResource) :
    discoverLoop junk following options rs (found.length, assembled following found) =
      some ((found ++ matching queries rs).length,
        assembled following (found ++ matching queries rs)) := by
  induction rs generalizing found with
  | nil => rw [discoverLoop, matching, List.filter_nil, List.append_nil]
  | cons r rs ih =>
    rw [discoverLoop, matching, List.filter_cons, ← matching]
    by_cases hshown : isShown r = true
    · obtain ⟨n, hn, hmatch⟩ := countFound_eq_length_iff h r
      rw [if_pos hshown, hn]
      dsimp only
      by_cases hm : Matches queries r
      · rw [if_pos (hmatch.2 hm), if_pos (decide_eq_true ⟨hshown, hm⟩), assembled_concat,
          ← List.length_singleton (a := r), ← List.length_append, ih, List.append_assoc]
        rfl
      · rw [if_neg (mt hmatch.1 hm), if_neg (by simp [hm]), ih]
    · rw [if_neg hshown, if_neg (by simp [hshown]), ih]

/-! ## The two bodies -/

/-- The descriptions of resources, each with a comma before it. -/
def commaSeparated (rs : List CoapResource) : List Byte :=
  (rs.map fun r => (',' : Byte) :: description r).flatten

theorem read_bytes_eq_nil_iff {mem : List Byte} : (CStr.read mem).bytes = [] ↔ mem.headD 0 = 0 := by
  rw [← CStr.bytes_empty, CStr.bytes_injective.eq_iff, CStr.read_eq_empty]
  cases mem <;> simp

theorem length_commaSeparated_le (k : ℕ) (rs : List CoapResource) :
    (commaSeparated rs).length ≤ (separated following k rs).length := by
  induction rs generalizing k with
  | nil => exact le_rfl
  | cons r rs ih =>
    have hle := ih (k + 1)
    rw [commaSeparated] at hle ⊢
    simp only [List.map_cons, List.flatten_cons, separated, tempText_bytes, List.length_append,
      List.length_cons]
    omega

/-- The separators are commas exactly when each of the variables has a `NUL` after it. -/
theorem separated_eq_iff (k : ℕ) (rs : List CoapResource) :
    separated following k rs = commaSeparated rs ↔
      ∀ i < rs.length, (following (k + i)).headD 0 = 0 := by
  induction rs generalizing k with
  | nil => exact iff_of_true rfl fun i hi => absurd hi (Nat.not_lt_zero i)
  | cons r rs ih =>
    have hsep : separated following k (r :: rs) = (',' : Byte) ::
        ((CStr.read (following k)).bytes ++ (description r ++ separated following (k + 1) rs)) := by
      simp only [separated, tempText_bytes, List.cons_append, List.append_assoc]
    have hcomma : commaSeparated (r :: rs) =
        (',' : Byte) :: (description r ++ commaSeparated rs) := rfl
    rw [hsep, hcomma, List.cons.injEq, and_iff_right rfl]
    constructor
    · intro heq
      -- nothing can be added, for the texts after the separator are not shorter
      have hnil : (CStr.read (following k)).bytes = [] := by
        have hlen := congrArg List.length heq
        have hle : (commaSeparated rs).length ≤ (separated following (k + 1) rs).length :=
          length_commaSeparated_le (k + 1) rs
        simp only [List.length_append] at hlen
        exact List.length_eq_zero_iff.1 (by omega)
      rw [hnil, List.nil_append, List.append_cancel_left_eq] at heq
      rintro (_ | i) hi
      · exact read_bytes_eq_nil_iff.1 hnil
      · rw [Nat.add_comm i 1, ← Nat.add_assoc]
        exact (ih (k + 1)).1 heq i (Nat.lt_of_succ_lt_succ hi)
    · intro hall
      have hnil : (CStr.read (following k)).bytes = [] :=
        read_bytes_eq_nil_iff.2 (hall 0 (Nat.succ_pos _))
      have hrest : separated following (k + 1) rs = commaSeparated rs := by
        refine (ih (k + 1)).2 fun i hi => ?_
        rw [Nat.add_assoc, Nat.add_comm 1]
        exact hall (i + 1) (Nat.succ_lt_succ hi)
      rw [hnil, List.nil_append, hrest]

theorem descriptions_cons (r : CoapResource) (rs : List CoapResource) :
    descriptions (r :: rs) = description r ++ commaSeparated rs := by
  rw [descriptions, List.map_cons, intercalate_cons_eq, List.map_map]
  rfl

/-- The two texts for the matching resources. -/
theorem assembled_eq_joined_iff (rs : List CoapResource) :
    assembled following rs = joined rs ↔
      ∀ k, 2 ≤ k → k ≤ rs.length → (following k).headD 0 = 0 := by
  rcases rs with _ | ⟨r, rs⟩
  · refine iff_of_true rfl fun k hk hle => ?_
    rw [List.length_nil] at hle
    omega
  · have hnul : (0 : Byte) ∉ description r ++ commaSeparated rs :=
      descriptions_cons r rs ▸ nul_notMem_descriptions (r :: rs)
    rw [assembled, joined, if_neg (List.cons_ne_nil r rs), descriptions_cons, Option.some.injEq,
      CStr.ext_iff, CStr.read_of_notMem (nul_notMem_assembled r rs), CStr.read_of_notMem hnul,
      List.append_cancel_left_eq, separated_eq_iff]
    constructor
    · intro hall k hk hle
      have hk' := hall (k - 2) (by rw [List.length_cons] at hle; omega)
      rwa [Nat.add_sub_cancel' hk] at hk'
    · exact fun hall i hi => hall (2 + i) (Nat.le_add_right 2 i) (by rw [List.length_cons]; omega)

/-- For well-formed queries, the two brokers assemble the same body exactly when a `NUL` follows
    the variable with the comma whenever a second or later match is added; they do so whatever
    bytes follow it exactly when there are fewer than two matches. -/
theorem discovery_bodies_agree_iff {options : List CoapOption} {queries : List (CStr × CStr)}
    (h : options.map (fun o => parseOptionURIQuery o.value) = queries.map some) (t : ResourceTable)
    (junk junk' : CStr → ℕ → Byte) :
    (∀ following, discoverLoop junk following options t (0, none) =
        CoapBroker.discoverLoop junk' options t (0, none) ↔
      ∀ k, 2 ≤ k → k ≤ (matching queries t).length → (following k).headD 0 = 0) ∧
    ((∀ following, discoverLoop junk following options t (0, none) =
        CoapBroker.discoverLoop junk' options t (0, none)) ↔
      (matching queries t).length < 2) := by
  -- the bodies are equal if what follows each description in memory begins with a NUL
  have hiff : ∀ following, discoverLoop junk following options t (0, none) =
      CoapBroker.discoverLoop junk' options t (0, none) ↔
      ∀ k, 2 ≤ k → k ≤ (matching queries t).length → (following k).headD 0 = 0 := by
    intro following
    have hcpp := discoverLoop_eq junk following h t []
    have hc := CoapBroker.discoverLoop_eq junk' h t []
    rw [List.nil_append] at hcpp hc
    rw [← assembled_eq_joined_iff]
    change discoverLoop junk following options t
      (([] : List CoapResource).length, assembled following []) =
      CoapBroker.discoverLoop junk' options t (([] : List CoapResource).length, joined []) ↔ _
    rw [hcpp, hc, Option.some.injEq, Prod.mk.injEq, and_iff_right rfl]
  refine ⟨hiff, ?_⟩
  simp only [hiff]
  constructor
  · intro hall
    by_contra hlt
    exact absurd (hall (fun _ => [1]) 2 le_rfl (not_lt.1 hlt)) (by decide)
  · intro hlt following k hk hle
    omega

/-- A topic with an attribute `rt`. -/
def topicWithRt (path rt : String) : CoapResource :=
  ((coapResourceInit (CStr.lit path) coapResourceFlagsReleaseUri).addAttr ctName (CStr.lit "0")
    0).addAttr (CStr.lit "rt") (CStr.lit rt) 0

/-- One topic matches. -/
theorem discovery_bodies_agree_single :
    (matching [(CStr.lit "rt", CStr.lit "a")]
        [topicWithRt "ps/x" "a", topicWithRt "ps/y" "b"]).length = 1 ∧
    ∀ following, discoverLoop (fun _ _ => 7) following [⟨coapOptionUriQuery, ascii "rt=a"⟩]
        [topicWithRt "ps/x" "a", topicWithRt "ps/y" "b"] (0, none) =
      CoapBroker.discoverLoop (fun _ _ => 7) [⟨coapOptionUriQuery, ascii "rt=a"⟩]
        [topicWithRt "ps/x" "a", topicWithRt "ps/y" "b"] (0, none) := by
  have hparse : [(⟨coapOptionUriQuery, ascii "rt=a"⟩ : CoapOption)].map
      (fun o => parseOptionURIQuery o.value) = [(CStr.lit "rt", CStr.lit "a")].map some := by decide
  have hiff := discovery_bodies_agree_iff hparse [topicWithRt "ps/x" "a", topicWithRt "ps/y" "b"]
    (fun _ _ => 7) fun _ _ => 7
  exact ⟨by decide, hiff.2.2 (by decide)⟩

/-- Two topics match, and the letter `z` follows the variable in memory. -/
theorem discovery_bodies_differ :
    [(⟨coapOptionUriQuery, ascii "rt=a"⟩ : CoapOption)].map
        (fun o => parseOptionURIQuery o.value) = [(CStr.lit "rt", CStr.lit "a")].map some ∧
    (∃ body, discoverLoop (fun _ _ => 7) (fun _ => [('z' : Byte)])
        [⟨coapOptionUriQuery, ascii "rt=a"⟩] [topicWithRt "ps/x" "a", topicWithRt "ps/y" "a"]
        (0, none) = some (2, some body) ∧
      body.bytes = ascii "</ps/x>;rt=a;ct=0,z</ps/y>;rt=a;ct=0") ∧
    ∃ body, CoapBroker.discoverLoop (fun _ _ => 7)
        [⟨coapOptionUriQuery, ascii "rt=a"⟩] [topicWithRt "ps/x" "a", topicWithRt "ps/y" "a"]
        (0, none) = some (2, some body) ∧
      body.bytes = ascii "</ps/x>;rt=a;ct=0,</ps/y>;rt=a;ct=0" := by
  exact ⟨by decide, ⟨_, rfl, by decide⟩, _, rfl, by decide⟩

end CoapBroker.Cpp
