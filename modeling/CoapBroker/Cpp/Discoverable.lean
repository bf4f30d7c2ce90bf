import CoapBroker.Cpp.Discovery
import CoapBroker.Cpp.Effect
import CoapBroker.Cpp.Grammars

/-!
# Discovering the topics of the C++ broker

A topic is created from a payload that matches the regular expression of `LinkFormat`, and
discovered by a query that the parser the broker shares with the C broker reads. The first
allows an underscore in names and values, which `\w` stands for; the second one does not, and
makes a malformed request of the query.

A topic is therefore found by one of its attributes exactly when neither the name nor the value
of this has an underscore (`created_topic_discoverable_iff`).
-/

namespace CoapBroker.Cpp

/-! ## Queries for an attribute -/

/-- The query `n=v`. -/
def queryText (n v : List Byte) : List Byte := n ++ ('=' : Byte) :: v

/-- The query parser on a name and a value of `LinkFormat`. -/
theorem parseOption_queryText {n v : List Byte} (hn : n ≠ [] ∧ ∀ c ∈ n, c ∈ lfChars)
    (hv : v ≠ [] ∧ ∀ c ∈ v, c ∈ lfChars) :
    parseOption (queryText n v) =
      if ('_' : Byte) ∈ n ∨ ('_' : Byte) ∈ v then none else some (n, v) := by
  have hne : ('=' : Byte) ∉ n := notMem_lfChars hn.2 (by decide)
  split_ifs with hunder
  · rw [← Option.not_isSome_iff_eq_none, Option.isSome_iff_exists]
    rintro ⟨⟨n', v'⟩, hparse⟩
    obtain ⟨l, r, heq, hl, hr, -, -, hn', hv'⟩ := parseOption_eq_some.1 hparse
    obtain ⟨rfl, rfl⟩ : n = n' ∧ v = l ++ v' ++ r := by
      have hne' : ('=' : Byte) ∉ n' := notMem_of_chars not_nameChar_eq hn'
      have hbefore := congrArg beforeEq heq
      have hafter := congrArg afterEq heq
      rw [queryText, beforeEq_of_notMem hne, beforeEq_of_notMem hne'] at hbefore
      rw [queryText, afterEq_of_notMem hne, afterEq_of_notMem hne'] at hafter
      exact ⟨hbefore, hafter⟩
    rcases hunder with h | h
    · exact not_nameChar_underscore (hn' _ h)
    · rcases List.mem_append.1 h with h | h
      · rcases List.mem_append.1 h with h | h
        · exact notMem_of_isQuote (by decide) hl h
        · exact not_nameChar_underscore (hv' _ h)
      · exact notMem_of_isQuote (by decide) hr h
  · rw [not_or] at hunder
    refine parseOption_eq_some.2 ⟨[], [], by simp [queryText], .inl rfl, .inl rfl, hn.1,
      by simpa using hv.1, fun c hc => ?_, fun c hc => ?_⟩
    · exact nameChar_of_mem_lfChars c (hn.2 c hc) (ne_of_mem_of_not_mem hc hunder.1)
    · exact nameChar_of_mem_lfChars c (hv.2 c hc) (ne_of_mem_of_not_mem hc hunder.2)

theorem parseOptionURIQuery_queryText {n v : CStr}
    (hn : n.bytes ≠ [] ∧ ∀ c ∈ n.bytes, c ∈ lfChars)
    (hv : v.bytes ≠ [] ∧ ∀ c ∈ v.bytes, c ∈ lfChars) :
    parseOptionURIQuery (queryText n.bytes v.bytes) =
      if ('_' : Byte) ∈ n.bytes ∨ ('_' : Byte) ∈ v.bytes then none else some (n, v) := by
  have hnul : (0 : Byte) ∉ queryText n.bytes v.bytes := by
    rw [queryText, List.mem_append, List.mem_cons, not_or, not_or]
    exact ⟨n.nul_free, by decide, v.nul_free⟩
  rw [parseOptionURIQuery_eq, CStr.read_of_notMem hnul, parseOption_queryText hn hv]
  split_ifs
  · rfl
  · simp

/-! ## Discovering a resource -/

/-- A resource of the table is discovered by the attribute `n=v`: a request with this query is
    answered with a body in which there is the description of the resource. -/
def Discoverable (t : ResourceTable) (r : CoapResource) (n v : CStr) : Prop :=
  ∀ request : Request,
    uriQueries request = [⟨coapOptionUriQuery, queryText n.bytes v.bytes⟩] →
    ∀ junk following, ∃ body : CStr, description r <:+: body.bytes ∧
      ∀ block2 room, hndGetBroker t request block2 room junk following =
        bodyResponse block2 room body

/-- With a malformed query, the loop ends at the first resource that is shown. -/
theorem discoverLoop_malformed (junk : CStr → ℕ → Byte) (following : ℕ → List Byte)
    {o : CoapOption} (ho : parseOptionURIQuery o.value = none) {t : List CoapResource}
    {r : CoapResource} (hr : r ∈ t) (hshown : isShown r) (s : ℕ × Option CStr) :
    discoverLoop junk following [o] t s = none := by
  induction t with
  | nil => exact absurd hr List.not_mem_nil
  | cons x t ih =>
    have hcount : countFound x [o] 0 = none := by rw [countFound, ho]
    rw [discoverLoop]
    by_cases hx : isShown x = true
    · rw [if_pos hx, hcount]
    · rw [if_neg hx]
      rcases List.mem_cons.1 hr with rfl | hr
      · exact absurd hshown hx
      · exact ih hr

theorem description_infix_assembled (following : ℕ → List Byte) {rs : List CoapResource}
    {r : CoapResource} (hr : r ∈ rs) :
    ∃ body : CStr, assembled following rs = some body ∧ description r <:+: body.bytes := by
  have hsep : ∀ (k : ℕ) (rs : List CoapResource), r ∈ rs →
      description r <:+: separated following k rs := by
    intro k rs
    induction rs generalizing k with
    | nil => exact fun h => absurd h List.not_mem_nil
    | cons x rs ih =>
      intro h
      rw [separated]
      rcases List.mem_cons.1 h with rfl | h
      · exact ⟨(tempText (following k)).bytes, separated following (k + 1) rs, rfl⟩
      · exact (ih (k + 1) h).trans (List.suffix_append _ _).isInfix
  rcases rs with _ | ⟨x, rs⟩
  · exact absurd hr List.not_mem_nil
  refine ⟨_, rfl, ?_⟩
  rw [CStr.read_of_notMem (nul_notMem_assembled x rs)]
  rcases List.mem_cons.1 hr with rfl | hr
  · exact (List.prefix_append _ _).isInfix
  · exact (hsep 2 rs hr).trans (List.suffix_append _ _).isInfix

/-- A body that fits a response is sent as "Content". -/
theorem bodyResponse_ne_malformed (body : CStr) :
    bodyResponse none (body.length + 1) body ≠ .ok (({} : Pdu).respond 400) := by
  rw [bodyResponse, if_pos le_rfl]
  intro h
  have hcode := congrArg Pdu.code (Except.ok.inj h)
  rw [Pdu.code_setCode, Pdu.code_respond] at hcode
  exact absurd hcode (by decide)

/-- A resource that is shown is discovered by the value of an attribute exactly when the query
    parser reads it. -/
theorem discoverable_iff {t : ResourceTable} {r : CoapResource} (hr : r ∈ t) (hshown : isShown r)
    {n v : CStr} (hn : n.bytes ≠ [] ∧ ∀ c ∈ n.bytes, c ∈ lfChars)
    (hv : v.bytes ≠ [] ∧ ∀ c ∈ v.bytes, c ∈ lfChars)
    (hattr : (r.findAttr n).map CoapAttr.value = some v) :
    Discoverable t r n v ↔ ('_' : Byte) ∉ n.bytes ∧ ('_' : Byte) ∉ v.bytes := by
  -- a query with an underscore is not understood
  have hparse := parseOptionURIQuery_queryText hn hv
  constructor
  · intro hdisc
    rw [← not_or]
    intro hunder
    rw [if_pos hunder] at hparse
    obtain ⟨body, -, hres⟩ := hdisc
      { options := [⟨coapOptionUriQuery, queryText n.bytes v.bytes⟩], payload := none } rfl
      (fun _ _ => 0) fun _ => []
    refine bodyResponse_ne_malformed body ?_
    rw [← hres none (body.length + 1)]
    exact hndGetBroker_of_malformed (discoverLoop_malformed _ _ hparse hr hshown (0, none))
  · intro hunder request hrequest junk following
    rw [← not_or] at hunder
    rw [if_neg hunder] at hparse
    have hmatch : r ∈ matching [(n, v)] t := by
      refine List.mem_filter.2 ⟨hr, decide_eq_true ⟨hshown, ?_⟩⟩
      rintro q hq
      rw [List.mem_singleton.1 hq]
      exact hattr
    obtain ⟨body, hbody, hinf⟩ := description_infix_assembled following hmatch
    have hqueries : (uriQueries request).map (fun o => parseOptionURIQuery o.value) =
        [(n, v)].map some := by
      rw [hrequest, List.map_singleton, hparse]
      rfl
    have hloop := discoverLoop_eq junk following hqueries t []
    have hpos : 0 < (matching [(n, v)] t).length := List.length_pos_of_mem hmatch
    refine ⟨body, hinf, fun block2 room => ?_⟩
    rw [List.nil_append, hbody] at hloop
    exact hndGetBroker_of_found hpos hloop

/-! ## Discovering a topic -/

/-- A request answered 2.01 has created a topic. -/
theorem step_created {b b' : Broker} (hb : Agreement b) {uri : CStr} {req : Request}
    {peer : CoapAddress} {token : List Byte} {now : ℤ} {out : Output}
    (hstep : step b (.request uri .post req peer token now) = .ok (b', out))
    (hcode : out.code = some (coapResponseCode 201)) :
    ∃ target lfData, IsParent target ∧ Creates target req lfData ∧
      lfData.path ∉ b.resources.uris ∧
      b'.resources =
        b.resources.add (asTopic (ofLinkFormat lfData coapResourceFlagsReleaseUri)) := by
  rcases hfind : b.find uri with _ | target
  · rw [step, hfind] at hstep
    cases hstep
    exact absurd hcode (by decide)
  · rw [step_post hb hfind] at hstep
    rcases hndPostBroker_cases hb hstep with
      ⟨-, pdu, rfl, hpdu⟩ | ⟨lfData, hlf, ⟨-, -, rfl⟩ | ⟨hnot, heq⟩⟩
    · have hpdu' : pdu.code = coapResponseCode 201 := Option.some.inj hcode
      rcases hpdu with hpdu | hpdu <;> exact absurd (hpdu.symm.trans hpdu') (by decide)
    · exact absurd hcode (by decide)
    · obtain ⟨rfl, -⟩ := Prod.mk.inj heq
      refine ⟨target, lfData, ?_, hlf, hnot, rfl⟩
      rcases hb.table.resource target (Broker.find_spec hfind).1 with htopic | hbuiltin
      · exact .inr htopic
      · exact .inl hbuiltin

/-- A new topic is shown. -/
theorem Creates.isShown {resource x : CoapResource} {request : Request} {lfData : LinkFormat}
    (h : Creates resource request lfData) (hparent : IsParent resource)
    (huri : x.uri = lfData.path) : isShown x := by
  obtain ⟨p, hp, -, hpath⟩ := h.path_eq
  have hbelow := hparent.below
  have hlen := hbelow.length_le
  have hpos := List.length_pos_iff.2 hp
  rw [isShown_iff, huri, CStr.length, hpath]
  constructor
  · rw [← List.singleton_append, ← List.append_assoc]
    exact hbelow.trans (List.prefix_append _ _)
  · rw [List.length_append, List.length_singleton] at hlen
    rw [List.length_append, List.length_cons]
    change 3 ≤ _ at hlen
    omega

/-- The names and values of an accepted text. -/
theorem LinkText.mem_attrs {text p : List Byte} {attrs : List (List Byte × List Byte)}
    (h : LinkText text p attrs) {a : List Byte × List Byte} (ha : a ∈ attrs) :
    (a.1 ≠ [] ∧ ∀ c ∈ a.1, c ∈ lfChars) ∧ a.2 ≠ [] ∧ ∀ c ∈ a.2, c ∈ lfChars := by
  obtain ⟨ss, -, -, hattrs, -⟩ := h
  obtain ⟨s, -, hs⟩ := exists_of_mem_forall₂ hattrs.flip ha
  exact ⟨hs.1, hs.2.1⟩

/-- The last attribute of its name is the one that is found. -/
theorem findAttr_of_last {r : CoapResource} {pre post : List CoapAttr} {a : CoapAttr}
    (hattr : r.linkAttr = (pre ++ a :: post).reverse) (hlast : ∀ x ∈ post, x.name ≠ a.name) :
    r.findAttr a.name = some a := by
  rw [CoapResource.findAttr, hattr, List.reverse_append, List.reverse_cons, List.append_assoc,
    List.find?_append,
    List.find?_eq_none.2 fun x hx => by simpa using hlast x (List.mem_reverse.1 hx)]
  simp

/-- In every reachable state, a topic that has been created is discovered by an attribute, the
    last one of its name in the payload, exactly when there is no underscore in the name and the
    value; that is so in every table with a resource of its URI and attributes, such as the one
    after the request. -/
theorem created_topic_discoverable_iff {b b' : Broker} (hb : Reachable step boot b) {uri : CStr}
    {req : Request} {peer : CoapAddress} {token : List Byte} {now : ℤ} {out : Output}
    (hstep : step b (.request uri .post req peer token now) = .ok (b', out))
    (hcode : out.code = some (coapResponseCode 201)) :
    checkLinkFormat (CStr.read req.data) ∧
    ∃ lfData r, LinkFormat.parse (CStr.read req.data)
        (coapAttrFlagsReleaseName ||| coapAttrFlagsReleaseValue) = .ok lfData ∧
      r ∈ b'.resources ∧ r.uri ∉ b.resources.uris ∧
      ∀ pre a post, lfData.attributeList = pre ++ a :: post → (∀ x ∈ post, x.name ≠ a.name) →
        ∀ t x, x ∈ t → x.uri = r.uri → x.linkAttr = r.linkAttr →
          (Discoverable t x a.name a.value ↔
            ('_' : Byte) ∉ a.name.bytes ∧ ('_' : Byte) ∉ a.value.bytes) := by
  obtain ⟨target, lfData, hparent, hlf, hnot, hres⟩ :=
    step_created (Reachable.agreement hb) hstep hcode
  obtain ⟨p, attrs, htext, hlfData, -⟩ := id hlf
  refine ⟨checkLinkFormat_iff.2 ⟨p, attrs, htext⟩, _,
    asTopic (ofLinkFormat lfData coapResourceFlagsReleaseUri),
    LinkFormat.parse_of_linkText htext _, ?_, ?_, ?_⟩
  · rw [hres]
    exact List.mem_append_right _ (List.mem_singleton_self _)
  · exact fun h => hnot (uri_ofLinkFormat lfData _ ▸ h)
  intro pre a post hattrs hlast t x hx huri hlink
  have hshown : isShown x := hlf.isShown hparent (huri.trans (uri_ofLinkFormat lfData _))
  -- the attributes of the resource, the last one first
  have hrev : x.linkAttr = (pre ++ a :: post).reverse := by
    rw [hlink, ← hattrs]
    refine ((linkAttr_ofLinkFormat lfData coapResourceFlagsReleaseUri).1).trans ?_
    rw [hlfData, linkFormatBelow]
  obtain ⟨⟨n, v⟩, hmem, rfl⟩ : ∃ nv ∈ attrs, (⟨CStr.read nv.1, CStr.read nv.2,
      coapAttrFlagsReleaseName ||| coapAttrFlagsReleaseValue⟩ : CoapAttr) = a := by
    have ha : a ∈ pre ++ a :: post := List.mem_append_right _ List.mem_cons_self
    rw [← hattrs] at ha
    exact List.mem_map.1 ha
  obtain ⟨hn, hv⟩ := htext.mem_attrs hmem
  have hread : ∀ s : List Byte, (∀ c ∈ s, c ∈ lfChars) → (CStr.read s).bytes = s := fun s hs =>
    CStr.read_of_notMem (notMem_lfChars hs (by decide))
  refine discoverable_iff hx hshown ?_ ?_ (by rw [findAttr_of_last hrev hlast]; rfl)
  · rwa [hread n hn.2]
  · rwa [hread v hv.2]

/-- A topic found by its content format. -/
theorem created_topic_discoverable :
    ∃ b' out r, step boot (.create "ps" "<a>;ct=0" 1) = .ok (b', out) ∧
      out.code = some (coapResponseCode 201) ∧ r ∈ b'.resources ∧
      Discoverable b'.resources r ctName (CStr.lit "0") := by
  have hany : ((step boot (.create "ps" "<a>;ct=0" 1)).toOption.any
      fun x => x.2.code = some (coapResponseCode 201)) = true := by decide +kernel
  obtain ⟨⟨b', out⟩, hstep, hcode⟩ := exists_ok_of_any hany
  obtain ⟨-, lfData, r, hparse, hr, -, hiff⟩ :=
    created_topic_discoverable_iff .init hstep hcode
  obtain ⟨parsed, hparsed, hattrs⟩ : ∃ parsed, LinkFormat.parse (CStr.read (ascii "<a>;ct=0"))
      (coapAttrFlagsReleaseName ||| coapAttrFlagsReleaseValue) = .ok parsed ∧
      parsed.attributeList = [] ++ ⟨ctName, CStr.lit "0", coapAttrFlagsReleaseName |||
        coapAttrFlagsReleaseValue⟩ :: [] := ⟨_, rfl, by decide⟩
  obtain rfl : parsed = lfData := Except.ok.inj (hparsed.symm.trans hparse)
  exact ⟨b', out, r, hstep, hcode, hr,
    (hiff _ _ _ hattrs (by simp) _ r hr rfl rfl).2 (by decide)⟩

/-- A topic with an attribute whose name is an underscore: the query for it is malformed. -/
theorem created_topic_not_discoverable :
    ∃ b' out, step boot (.create "ps" "<a>;ct=0;_=0" 1) = .ok (b', out) ∧
      out.code = some (coapResponseCode 201) ∧
      hndGetBroker b'.resources
        { options := [⟨coapOptionUriQuery, ascii "_=0"⟩], payload := none } none 1000
        (fun _ _ => 7) (fun _ => []) = .ok (({} : Pdu).respond 400) := by
  have hany : ((step boot (.create "ps" "<a>;ct=0;_=0" 1)).toOption.any
      fun x => x.2.code = some (coapResponseCode 201) ∧
        hndGetBroker x.1.resources
          { options := [⟨coapOptionUriQuery, ascii "_=0"⟩], payload := none } none 1000
          (fun _ _ => 7) (fun _ => []) = .ok (({} : Pdu).respond 400)) = true := by
    decide +kernel
  obtain ⟨⟨b', out⟩, hstep, hres⟩ := exists_ok_of_any hany
  exact ⟨b', out, hstep, hres⟩

end CoapBroker.Cpp
