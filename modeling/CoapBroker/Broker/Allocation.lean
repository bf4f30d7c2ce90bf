import CoapBroker.Broker.Discovery
import CoapBroker.Lib.Memory
import CoapBroker.Parser.Grammar

/-!
# What discovery allocates

`hnd_get_broker` once more, with its strings on a memory. The names and values of the queries are
allocated by `parseOptionURIQuery` for the caller, who frees them; the pointers to them are
uninitialised before. The text of the response is `NULL` at first.

Without a fault, the handler answers what the one on values does, and leaves the memory as it was
(`hndGetBroker_gives`). It has one exactly when a query without a name and a value is reached for
some topic (`hndGetBroker_error`): then nothing has been allocated for it, and the uninitialised
pointers are freed. Hence `discovery_frees_iff`.
-/

namespace CoapBroker.Allocating

open Memory
open PtrList (Malloc)

/-! ## The handler -/

/-- `parseOptionURIQuery`: the status, and the pointers to the name and the value, which are
    assigned when there are both. -/
def parseOptionURIQuery (m : Malloc) (optionValue : List Byte) (queryName queryValue : Ptr) :
    Prog CStr (ℤ × Ptr × Ptr) := do
  let tempUriQuery ← malloc m
  store tempUriQuery (CStr.read optionValue)
  let query ← load tempUriQuery
  let sizes := (calOptionSize query.bytes).getD (0, 0)
  if 0 < sizes.1 ∧ 0 < sizes.2 then
    let queryName ← malloc m
    let queryValue ← malloc m
    match parseOption query.bytes with
    | some (name, value) =>
      store queryName (CStr.read name)
      store queryValue (CStr.read value)
      free tempUriQuery
      return (1, queryName, queryValue)
    | none =>
      free tempUriQuery
      return (0, queryName, queryValue)
  else
    free tempUriQuery
    return (-1, queryName, queryValue)

/-- `dynamicConcatenate`, with a second string that is not `NULL`. -/
def dynamicConcatenate (m : Malloc) (str : Ptr) (str2 : CStr) : Prog CStr Ptr := do
  if str = .null then
    let str ← malloc m
    store str str2
    return str
  else
    let tmp ← malloc m
    let s ← load str
    store tmp s
    let str ← realloc m str
    let s ← load tmp
    store str (CStr.read (s.bytes ++ str2.bytes))
    free tmp
    return str

/-- Whether the resource has the attribute `queryName` with the value `queryValue`. -/
def attributeMatches (r : CoapResource) (queryName queryValue : Ptr) : Prog CStr Bool := do
  let name ← load queryName
  match r.findAttr name with
  | some tempAttr =>
    let value ← load queryValue
    return compareString (some tempAttr.value) (some value)
  | none => return false

/-- The loop over the queries, which counts the ones `r` matches; `none` when one of them is
    malformed, everything having been freed. -/
def countFound (m : Malloc) (r : CoapResource) (requestedLinkFormatData : Ptr) :
    List CoapOption → ℕ → Prog CStr (Option ℕ)
  | [], foundQuery => return some foundQuery
  | option :: options, foundQuery => do
    let (status, queryName, queryValue) ←
      parseOptionURIQuery m option.value .uninit .uninit
    if status = 1 then
      let found ← attributeMatches r queryName queryValue
      free queryName
      free queryValue
      countFound m r requestedLinkFormatData options
        (if found then foundQuery + 1 else foundQuery)
    else
      free queryName
      free queryValue
      free requestedLinkFormatData
      return none

/-- Adding the description of a matching resource, with a comma unless it is the first. -/
def addDescription (m : Malloc) (counter : ℕ) (requestedLinkFormatData : Ptr)
    (responseData : CStr) : Prog CStr Ptr := do
  if counter = 1 then dynamicConcatenate m requestedLinkFormatData responseData
  else
    let data ← dynamicConcatenate m requestedLinkFormatData (CStr.lit ",")
    dynamicConcatenate m data responseData

/-- The loop over the table, with the number of matching resources and the text so far. -/
def discoverLoop (m : Malloc) (junk : CStr → ℕ → Byte) (queries : List CoapOption) :
    List CoapResource → ℕ → Ptr → Prog CStr (Option (ℕ × Ptr))
  | [], counter, data => return some (counter, data)
  | r :: rs, counter, data => do
    if isShown r then
      match ← countFound m r data queries 0 with
      | none => return none
      | some foundQuery =>
        if queries.length = foundQuery then
          let data ← addDescription m (counter + 1) data (printedText (junk r.uri) r)
          discoverLoop m junk queries rs (counter + 1) data
        else discoverLoop m junk queries rs counter data
    else discoverLoop m junk queries rs counter data

/-- The response with a body, which is freed on every way out but the failed assertion. -/
def bodyResponse (block2 : Option CoapBlock) (room : ℕ) (requestedLinkFormatData : Ptr) :
    Prog CStr (Except Fault Pdu) := do
  let data ← load requestedLinkFormatData
  let response := ({} : Pdu).addOption coapOptionContentType
    (coapEncodeVarBytes coapMediatypeApplicationLinkFormat)
  match block2 with
  | some block =>
    match coapWriteBlockOpt block coapOptionBlock2 response room data.length with
    | .ok (block, response) =>
      free requestedLinkFormatData
      return .ok ((coapAddBlock response data.bytes block).setCode 205)
    | .error res =>
      if res = -2 then
        free requestedLinkFormatData
        return .ok (response.respond 400)
      else if res = -1 then return .error .assertion
      else
        free requestedLinkFormatData
        return .ok (response.respond 500)
  | none =>
    free requestedLinkFormatData
    if data.length + 1 ≤ room then return .ok ((response.addData data.bytes).setCode 205)
    else
      match coapWriteBlockOpt { szx := 6 } coapOptionBlock2 response room data.length with
      | .ok (block, response) => return .ok ((coapAddBlock response data.bytes block).setCode 205)
      | .error _ => return .ok ((coapAddBlock response data.bytes { szx := 6 }).setCode 205)

/-- `hnd_get_broker`, for a request in which `coap_get_block` finds `block2`. -/
def hndGetBroker (m : Malloc) (b : Broker) (request : Request) (block2 : Option CoapBlock)
    (room : ℕ) (junk : CStr → ℕ → Byte) : Prog CStr (Except Fault Pdu) := do
  match ← discoverLoop m junk (uriQueries request) b.resources 0 .null with
  | none => return .ok (({} : Pdu).respond 400)
  | some (counter, requestedLinkFormatData) =>
    if counter > 0 then bodyResponse block2 room requestedLinkFormatData
    else
      free requestedLinkFormatData
      return .ok (({} : Pdu).respond 404)

/-! ## Queries -/

variable {m : Malloc} {h h₀ : Mem CStr} {l : List (ℕ × Option CStr)}

/-- A query without a name and a value is refused, and nothing is allocated for it. -/
theorem parseOptionURIQuery_invalid {v : List Byte} {p q : Ptr} (ho : Owns h₀ l h)
    (hval : optionValidation (CStr.read v).bytes ≠ 1) :
    Gives (parseOptionURIQuery m v p q) h fun res h' => res = (-1, p, q) ∧ Owns h₀ l h' := by
  have hsizes : calOptionSize (CStr.read v).bytes = none := by rw [calOptionSize, if_neg hval]
  refine (ho.malloc m).bind ?_
  rintro - h₁ ⟨a, rfl, ho⟩
  refine (ho.store (CStr.read v)).bind fun _ h₂ ho => ?_
  refine ho.load.bind ?_
  rintro _ h₃ ⟨rfl, rfl⟩
  rw [hsizes]
  refine ho.free.bind fun _ h₄ ho => ?_
  exact .pure ⟨rfl, ho⟩

/-- What `parseOptionURIQuery` gives for a query with a name and a value: both have been allocated,
    and written if they are accepted. -/
def ParsedQuery (v : List Byte) (h₀ : Mem CStr) (l : List (ℕ × Option CStr)) (res : ℤ × Ptr × Ptr)
    (h : Mem CStr) : Prop :=
  ∃ a b x y, res.2 = (.block a, .block b) ∧ Owns h₀ ((a, x) :: (b, y) :: l) h ∧
    (res.1 = 0 ∧ CoapBroker.parseOptionURIQuery v = none ∨
      ∃ name value, res.1 = 1 ∧ x = some name ∧ y = some value ∧
        CoapBroker.parseOptionURIQuery v = some (name, value))

theorem parseOptionURIQuery_valid {v : List Byte} {p q : Ptr} (ho : Owns h₀ l h)
    (hval : optionValidation (CStr.read v).bytes = 1) :
    Gives (parseOptionURIQuery m v p q) h (ParsedQuery v h₀ l) := by
  have hsizes : calOptionSize (CStr.read v).bytes =
      some ((beforeEq (CStr.read v).bytes).length, (afterEq (CStr.read v).bytes).length) := by
    rw [calOptionSize, if_pos hval]
  refine (ho.malloc m).bind ?_
  rintro - h₁ ⟨t, rfl, ho⟩
  refine (ho.store (CStr.read v)).bind fun _ h₂ ho => ?_
  refine ho.load.bind ?_
  rintro _ h₃ ⟨rfl, rfl⟩
  rw [hsizes]
  dsimp only [Option.getD_some]
  rw [if_pos (calOptionSize_pos hsizes)]
  refine (ho.malloc m).bind ?_
  rintro - h₄ ⟨a, rfl, ho⟩
  refine (ho.malloc m).bind ?_
  rintro - h₅ ⟨b, rfl, ho⟩
  have heq := parseOptionURIQuery_eq v
  rcases hp : parseOption (CStr.read v).bytes with _ | ⟨name, value⟩
  · rw [hp] at heq
    refine ho.swap_third.free.bind fun _ h₆ ho => ?_
    exact .pure ⟨a, b, none, none, rfl, ho, .inl ⟨rfl, heq⟩⟩
  · rw [hp] at heq
    refine (ho.swap.store (CStr.read name)).bind fun _ h₆ ho => ?_
    refine (ho.swap.store (CStr.read value)).bind fun _ h₇ ho => ?_
    refine ho.swap_third.free.bind fun _ h₈ ho => ?_
    exact .pure ⟨a, b, _, _, rfl, ho, .inr ⟨_, _, rfl, rfl, rfl, heq⟩⟩

/-! ## The text so far -/

/-- The pointer to the text of the response, and the block it is in. -/
inductive TextAt : Ptr → Option CStr → List (ℕ × Option CStr) → Prop
  | null : TextAt .null none []
  | block (a : ℕ) (s : CStr) : TextAt (.block a) (some s) [(a, some s)]

variable {data : Ptr} {text : Option CStr}

/-- What is left after the text has been extended. -/
def Concatenated (h₀ : Mem CStr) (text : Option CStr) (p : Ptr) (h : Mem CStr) : Prop :=
  ∃ l, TextAt p text l ∧ Owns h₀ l h

theorem dynamicConcatenate_gives (ho : Owns h₀ l h) (ht : TextAt data text l) (str2 : CStr) :
    Gives (dynamicConcatenate m data str2) h
      (Concatenated h₀ (CoapBroker.dynamicConcatenate text str2)) := by
  cases ht with
  | null =>
    refine (ho.malloc m).bind ?_
    rintro - h₁ ⟨a, rfl, ho⟩
    refine (ho.store str2).bind fun _ h₂ ho => ?_
    exact .pure ⟨_, .block a str2, ho⟩
  | block a s =>
    refine (ho.malloc m).bind ?_
    rintro - h₁ ⟨t, rfl, ho⟩
    refine ho.swap.load.bind ?_
    rintro _ h₂ ⟨rfl, rfl⟩
    refine (ho.store s).bind fun _ h₃ ho => ?_
    refine (ho.swap.realloc m).bind ?_
    rintro - h₄ ⟨b, rfl, ho⟩
    refine ho.swap.load.bind ?_
    rintro _ h₅ ⟨rfl, rfl⟩
    refine (ho.store (CStr.read (s.bytes ++ str2.bytes))).bind fun _ h₆ ho => ?_
    refine ho.swap.free.bind fun _ h₇ ho => ?_
    exact .pure ⟨_, .block b _, ho⟩

theorem addDescription_gives (ho : Owns h₀ l h) (ht : TextAt data text l) (counter : ℕ)
    (responseData : CStr) :
    Gives (addDescription m counter data responseData) h (Concatenated h₀
      (if counter = 1 then CoapBroker.dynamicConcatenate text responseData
        else CoapBroker.dynamicConcatenate (CoapBroker.dynamicConcatenate text (CStr.lit ","))
          responseData)) := by
  rw [addDescription]
  by_cases hc : counter = 1
  · rw [if_pos hc, if_pos hc]
    exact dynamicConcatenate_gives ho ht responseData
  · rw [if_neg hc, if_neg hc]
    refine (dynamicConcatenate_gives ho ht _).bind ?_
    rintro p h₁ ⟨l', ht, ho⟩
    exact dynamicConcatenate_gives ho ht responseData

/-- Freeing the text. -/
theorem free_gives (ho : Owns h₀ l h) (ht : TextAt data text l) :
    Gives (free data) h fun _ h' => h' = h₀ := by
  cases ht with
  | null => exact ⟨_, _, free_null, owns_nil_iff.1 ho⟩
  | block a s =>
    obtain ⟨x, h', hrun, ho⟩ := ho.free
    exact ⟨x, h', hrun, owns_nil_iff.1 ho⟩

/-! ## The loops -/

/-- The resource has the attribute of a query, with its value. -/
def hasValue (r : CoapResource) (name value : CStr) : Bool :=
  (r.findAttr name).any fun attr => compareString (some attr.value) (some value)

theorem attributeMatches_gives {r : CoapResource} {a b : ℕ} {name value : CStr}
    (ho : Owns h₀ ((a, some name) :: (b, some value) :: l) h) :
    Gives (attributeMatches r (.block a) (.block b)) h fun found h' =>
      hasValue r name value = found ∧ h = h' := by
  rw [hasValue]
  refine ho.load.bind ?_
  rintro _ h₁ ⟨rfl, rfl⟩
  rcases hattr : r.findAttr name with _ | attr
  · exact .pure ⟨rfl, rfl⟩
  · refine ho.swap.load.bind ?_
    rintro _ h₂ ⟨rfl, rfl⟩
    exact .pure ⟨rfl, rfl⟩

theorem countFound_cons {r : CoapResource} {o : CoapOption} {name value : CStr}
    (hparse : CoapBroker.parseOptionURIQuery o.value = some (name, value))
    (queries : List CoapOption) (n : ℕ) :
    CoapBroker.countFound r (o :: queries) n =
      CoapBroker.countFound r queries (if hasValue r name value then n + 1 else n) := by
  rw [CoapBroker.countFound, hparse, hasValue]
  dsimp only
  rcases r.findAttr name with _ | attr
  · rfl
  · rw [Option.any_some]
    dsimp only
    split_ifs <;> rfl

/-- A query without a name and a value, all queries before it being accepted. -/
def ReachesInvalid (queries : List CoapOption) : Prop :=
  Reaches (fun o => (CoapBroker.parseOptionURIQuery o.value).isSome)
    (fun o => optionValidation (CStr.read o.value).bytes ≠ 1) queries

/-- The outcomes of the loop over the queries: the number of queries that are found, or none, when
    the text has been freed. -/
def Counted (h₀ : Mem CStr) (l : List (ℕ × Option CStr)) (expected res : Option ℕ) (h : Mem CStr) :
    Prop :=
  res = expected ∧ if res = none then h = h₀ else Owns h₀ l h

theorem countFound_gives (r : CoapResource) {queries : List CoapOption}
    (hq : ¬ReachesInvalid queries) (ho : Owns h₀ l h) (ht : TextAt data text l) (n : ℕ) :
    Gives (countFound m r data queries n) h (Counted h₀ l (CoapBroker.countFound r queries n)) := by
  induction queries generalizing n h with
  | nil => exact .pure ⟨rfl, ho⟩
  | cons o queries ih =>
    rw [ReachesInvalid, reaches_cons, not_or, not_not, not_and] at hq
    refine (parseOptionURIQuery_valid ho hq.1).bind ?_
    rintro ⟨status, p, q⟩ h₁ ⟨a, b, x, y, hpq, ho, hres⟩
    obtain ⟨rfl, rfl⟩ := Prod.mk.inj hpq
    rcases hres with ⟨rfl, hparse⟩ | ⟨name, value, rfl, rfl, rfl, hparse⟩
    · -- the name and the value have been allocated, and are freed as is the text
      rw [CoapBroker.countFound, hparse]
      refine ho.free.bind fun _ h₂ ho => ?_
      refine ho.free.bind fun _ h₃ ho => ?_
      refine (free_gives ho ht).bind fun _ h₄ heq => ?_
      exact .pure ⟨rfl, heq⟩
    · refine (attributeMatches_gives ho).bind ?_
      rintro _ h₂ ⟨rfl, rfl⟩
      refine ho.free.bind fun _ h₃ ho => ?_
      refine ho.free.bind fun _ h₄ ho => ?_
      rw [hparse] at hq
      rw [countFound_cons hparse]
      exact ih (hq.2 rfl) ho _

/-- An invalid query that is reached is a fault. -/
theorem countFound_error (r : CoapResource) {queries : List CoapOption}
    (hq : ReachesInvalid queries) (ho : Owns h₀ l h) (data : Ptr) (n : ℕ) :
    (countFound m r data queries n).run h = .error .uninitialized := by
  induction queries generalizing n h with
  | nil => exact absurd hq not_reaches_nil
  | cons o queries ih =>
    rw [ReachesInvalid, reaches_cons] at hq
    by_cases hval : optionValidation (CStr.read o.value).bytes = 1
    · obtain ⟨hsome, hq⟩ := hq.resolve_left (not_not.2 hval)
      refine (parseOptionURIQuery_valid ho hval).run_error ?_
      rintro ⟨status, p, q⟩ h₁ ⟨a, b, x, y, hpq, ho, hres⟩
      obtain ⟨rfl, rfl⟩ := Prod.mk.inj hpq
      rcases hres with ⟨-, hparse⟩ | ⟨name, value, rfl, rfl, rfl, -⟩
      · rw [hparse] at hsome
        exact absurd hsome (by decide)
      · refine (attributeMatches_gives ho).run_error ?_
        rintro _ h₂ ⟨rfl, rfl⟩
        refine ho.free.run_error fun _ h₃ ho => ?_
        refine ho.free.run_error fun _ h₄ ho => ?_
        exact ih hq ho _
    · -- the pointers are what they were
      refine (parseOptionURIQuery_invalid ho hval).run_error ?_
      rintro _ h₁ ⟨rfl, -⟩
      exact run_bind_error free_uninit

/-- The outcomes of the loop over the table. -/
def Discovered (h₀ : Mem CStr) (expected : Option (ℕ × Option CStr)) (res : Option (ℕ × Ptr))
    (h : Mem CStr) : Prop :=
  (res = none ∧ expected = none ∧ h = h₀) ∨
    ∃ counter data text l, res = some (counter, data) ∧ expected = some (counter, text) ∧
      (0 < counter → text ≠ none) ∧ TextAt data text l ∧ Owns h₀ l h

theorem dynamicConcatenate_ne_none (text : Option CStr) (str2 : CStr) :
    CoapBroker.dynamicConcatenate text str2 ≠ none := by
  rcases text with _ | s <;> exact Option.some_ne_none _

theorem discoverLoop_gives (junk : CStr → ℕ → Byte) {queries : List CoapOption}
    {rs : List CoapResource} (hq : (∃ r ∈ rs, isShown r) → ¬ReachesInvalid queries)
    (ho : Owns h₀ l h) (ht : TextAt data text l) {counter : ℕ} (hc : 0 < counter → text ≠ none) :
    Gives (discoverLoop m junk queries rs counter data) h
      (Discovered h₀ (CoapBroker.discoverLoop junk queries rs (counter, text))) := by
  induction rs generalizing l h data text counter with
  | nil => exact .pure (.inr ⟨counter, data, text, l, rfl, rfl, hc, ht, ho⟩)
  | cons r rs ih =>
    have hq' : (∃ r ∈ rs, isShown r) → ¬ReachesInvalid queries := fun ⟨r', hr', hshown⟩ =>
      hq ⟨r', List.mem_cons_of_mem r hr', hshown⟩
    rw [discoverLoop, CoapBroker.discoverLoop]
    by_cases hshown : isShown r = true
    · rw [if_pos hshown, if_pos hshown]
      refine (countFound_gives r (hq ⟨r, List.mem_cons_self, hshown⟩) ho ht 0).bind ?_
      rintro res h₁ ⟨rfl, hh⟩
      generalize CoapBroker.countFound r queries 0 = found at hh ⊢
      -- a query that is not understood ends the loop
      rcases found with _ | foundQuery
      · exact .pure (.inl ⟨rfl, rfl, hh⟩)
      dsimp only
      by_cases hfound : queries.length = foundQuery
      · rw [if_pos hfound, if_pos hfound]
        refine (addDescription_gives hh ht (counter + 1) _).bind ?_
        rintro p h₂ ⟨l', ht', ho'⟩
        refine ih hq' ho' ht' fun _ => ?_
        split_ifs
        · exact dynamicConcatenate_ne_none _ _
        · exact dynamicConcatenate_ne_none _ _
      · rw [if_neg hfound, if_neg hfound]
        exact ih hq' hh ht hc
    · rw [if_neg hshown, if_neg hshown]
      exact ih hq' ho ht hc

/-- With an invalid query, a shown topic is a fault. -/
theorem discoverLoop_error (junk : CStr → ℕ → Byte) {queries : List CoapOption}
    (hq : ReachesInvalid queries) {rs : List CoapResource} (hrs : ∃ r ∈ rs, isShown r)
    (ho : Owns h₀ l h) (counter : ℕ) (data : Ptr) :
    (discoverLoop m junk queries rs counter data).run h = .error .uninitialized := by
  induction rs with
  | nil =>
    obtain ⟨r, hr, -⟩ := hrs
    exact absurd hr List.not_mem_nil
  | cons r rs ih =>
    rw [discoverLoop]
    by_cases hshown : isShown r = true
    · rw [if_pos hshown]
      exact run_bind_error (countFound_error r hq ho data 0)
    · rw [if_neg hshown]
      obtain ⟨r', hr', hshown'⟩ := hrs
      rcases List.mem_cons.1 hr' with rfl | hr'
      · exact absurd hshown' hshown
      · exact ih ⟨r', hr', hshown'⟩

/-! ## The handler -/

theorem bodyResponse_gives (block2 : Option CoapBlock) (room : ℕ) {a : ℕ} {s : CStr}
    (ho : Owns h₀ [(a, some s)] h) :
    Gives (bodyResponse block2 room (.block a)) h fun res h' =>
      CoapBroker.bodyResponse block2 room s = res ∧ h' = h₀ := by
  refine ho.load.bind ?_
  rintro _ h₁ ⟨rfl, rfl⟩
  have hfree : ∀ res : Except Fault Pdu, Gives (free (.block a) >>= fun _ => pure res) h
      fun res' h' => res = res' ∧ h' = h₀ := fun res =>
    ho.free.bind fun _ h₂ ho => .pure ⟨rfl, owns_nil_iff.1 ho⟩
  rcases block2 with _ | block
  · rw [CoapBroker.bodyResponse]
    dsimp only
    refine ho.free.bind fun _ h₂ ho => ?_
    have hh := owns_nil_iff.1 ho
    split_ifs
    · exact .pure ⟨rfl, hh⟩
    · rcases coapWriteBlockOpt _ _ _ _ _ with res | ⟨block, response⟩
      · exact .pure ⟨rfl, hh⟩
      · exact .pure ⟨rfl, hh⟩
  · rw [CoapBroker.bodyResponse]
    dsimp only
    rcases hw : coapWriteBlockOpt block _ _ _ _ with res | ⟨block', response⟩
    · -- the assertion, before which nothing is freed, does not fail
      rcases coapWriteBlockOpt_error hw with rfl | rfl
      · exact hfree _
      · exact hfree _
    · exact hfree _

/-- Without an invalid query, or without a topic, the handler answers what the one on values does,
    and leaves the memory as it was. -/
theorem hndGetBroker_gives (m : Malloc) (b : Broker) (request : Request) (block2 : Option CoapBlock)
    (room : ℕ) (junk : CStr → ℕ → Byte) (h : Mem CStr)
    (hq : (∃ r ∈ b.resources, isShown r) → ¬ReachesInvalid (uriQueries request)) :
    Gives (hndGetBroker m b request block2 room junk) h fun res h' =>
      CoapBroker.hndGetBroker b request block2 room junk = res ∧ h' = h := by
  refine (discoverLoop_gives junk hq .nil .null fun h0 => absurd h0 (lt_irrefl 0)).bind ?_
  rintro res h₁ (⟨rfl, hnone, rfl⟩ | ⟨counter, data, text, l, rfl, hsome, hc, ht, ho⟩)
  · refine .pure ⟨?_, rfl⟩
    rw [CoapBroker.hndGetBroker, hnone]
  · rw [CoapBroker.hndGetBroker, hsome]
    dsimp only
    by_cases hpos : counter > 0
    · rw [if_pos hpos, if_pos hpos]
      cases ht with
      | null => exact absurd rfl (hc hpos)
      | block a s => exact bodyResponse_gives block2 room ho
    · rw [if_neg hpos, if_neg hpos]
      exact (free_gives ho ht).bind fun _ h₂ heq => .pure ⟨rfl, heq⟩

theorem hndGetBroker_error (m : Malloc) (b : Broker) (request : Request)
    (block2 : Option CoapBlock) (room : ℕ) (junk : CStr → ℕ → Byte) (h : Mem CStr)
    (hrs : ∃ r ∈ b.resources, isShown r) (hq : ReachesInvalid (uriQueries request)) :
    (hndGetBroker m b request block2 room junk).run h = .error .uninitialized :=
  run_bind_error (discoverLoop_error junk hq hrs .nil 0 .null)

/-- Discovery frees only what it has allocated, and all of it, exactly if there is no topic or no
    invalid query is reached. -/
theorem discovery_frees_iff (m : Malloc) (b : Broker) (request : Request)
    (block2 : Option CoapBlock) (room : ℕ) (junk : CStr → ℕ → Byte) (h : Mem CStr) :
    (∃ res, (hndGetBroker m b request block2 room junk).run h = .ok (res, h)) ↔
      ((∃ r ∈ b.resources, isShown r) → ¬ReachesInvalid (uriQueries request)) := by
  constructor
  · rintro ⟨res, hrun⟩ hrs hq
    rw [hndGetBroker_error m b request block2 room junk h hrs hq] at hrun
    cases hrun
  · intro hq
    obtain ⟨res, h', hrun, -, rfl⟩ := hndGetBroker_gives m b request block2 room junk h hq
    exact ⟨res, hrun⟩

/-- The query `abc`, for a table with a topic. -/
theorem discovery_frees_uninitialized :
    let b : Broker := {
      resources := [coapResourceInit brokerPath 0, coapResourceInit (CStr.lit "ps/a") 0]
      mqttBridge := false }
    let request : Request := { options := [⟨coapOptionUriQuery, ascii "abc"⟩], payload := none }
    (hndGetBroker .above b request none 1000 fun _ _ => 7).run ∅ = .error .uninitialized := by
  intro b request
  have hshown : ∃ r ∈ b.resources, isShown r := ⟨coapResourceInit (CStr.lit "ps/a") 0, by decide⟩
  have hinvalid : ReachesInvalid (uriQueries request) :=
    ⟨[], ⟨coapOptionUriQuery, ascii "abc"⟩, [], rfl, fun _ h => absurd h List.not_mem_nil, by decide⟩
  exact hndGetBroker_error .above b request none 1000 _ ∅ hshown hinvalid

end CoapBroker.Allocating
