import CoapBroker.Cpp.Handlers
import CoapBroker.Lib.Run
import CoapBroker.Store.Agreement

/-!
# The C++ broker as a transition system

The requests the C++ broker handles, with the observers libcoap adds and removes, as for the
C broker; its main loop does not call the expiry sweeps. A step that throws fails.

The store and the table agree (`Agreement`) as in the C broker, and the counter of the store
is exact.
-/

namespace CoapBroker.Cpp

/-! ## Steps -/

/-- An event. -/
inductive Event
  /-- A request to the resource with the URI, at the time `now`. -/
  | request (uri : CStr) (method : Method) (req : Request) (peer : CoapAddress)
      (token : List Byte) (now : ℤ)
  /-- An observer is added to an observable resource. -/
  | observe (uri : CStr) (peer : CoapAddress) (token : List Byte)
  /-- An observer is removed. -/
  | unobserve (uri : CStr) (peer : CoapAddress) (token : List Byte)

/-- Calling a handler on a resource. Discovery changes nothing. -/
def callHandler (b : Broker) (r : CoapResource) (req : Request) (peer : CoapAddress)
    (token : List Byte) (now : ℤ) : Handler → Except Fault (Broker × Output)
  | .hndPostBroker => hndPostBroker b r req now
  | .hndPostTopic => hndPostTopic b r req now
  | .hndGetTopic =>
    (hndGetTopic b r peer token (some req) now).map fun response => (b, { response })
  | .hndPutTopic => hndPutTopic b r req now
  | .hndDeleteTopic => .ok (hndDeleteTopic b r)
  | .hndGetBroker | .hndDeleteBroker | .hndGetRd | .hndPostRd => .ok (b, {})

/-- A step of the broker. -/
def step (b : Broker) : Event → Except Fault (Broker × Output)
  | .request uri method req peer token now =>
    match b.find uri with
    | none => .ok (b, { response := some (({} : Pdu).respond 404) })
    | some r =>
      match r.handler.of method with
      | none => .ok (b, { response := some (({} : Pdu).respond 405) })
      | some h => callHandler b r req peer token now h
  | .observe uri peer token =>
    .ok ({ b with resources := b.resources.changeObservers uri (·.addObserver peer token) }, {})
  | .unobserve uri peer token =>
    .ok ({ b with resources := b.resources.changeObservers uri (·.deleteObserver peer token) }, {})

/-- The resource of the broker. -/
def brokerResource : CoapResource :=
  let r := coapResourceInit brokerPath coapResourceFlagsReleaseUri
  let r := { r with handler := { get := some .hndGetBroker, post := some .hndPostBroker } }
  let r := r.addAttr (CStr.lit "ct") (CStr.lit "40") 0
  r.addAttr (CStr.lit "rt") (CStr.lit "\"core.ps\"") 0

/-- The broker when the main loop begins. -/
def boot : Broker where
  resources := [brokerResource]

/-! ## Requests, written out -/

/-- A request to create a topic: the payload in link format. -/
def Event.create (parent payload : String) (now : ℤ) : Event :=
  .request (CStr.lit parent) .post
    { options := [⟨coapOptionContentType,
        coapEncodeVarBytes coapMediatypeApplicationLinkFormat⟩]
      payload := some (ascii payload) } [] [] now

/-- A request to publish to a topic of content format `ct`. -/
def Event.publish (topic : String) (ct : ℕ) (payload : String) (maxAge : Option ℕ) (now : ℤ) :
    Event :=
  .request (CStr.lit topic) .put
    { options := ⟨coapOptionContentType, coapEncodeVarBytes ct⟩ ::
        (maxAge.map fun v => ⟨coapOptionMaxage, coapEncodeVarBytes v⟩).toList
      payload := some (ascii payload) } [] [] now

/-- A request to delete a topic. -/
def Event.remove (topic : String) (now : ℤ) : Event :=
  .request (CStr.lit topic) .delete { options := [], payload := none } [] [] now

/-! ## Agreement -/

/-- A topic, as `sHandler` registers it. -/
structure IsTopic (r : CoapResource) : Prop where
  handler : r.handler = topicHandlers
  observable : r.observable = true
  ct : (r.findAttr ctName).isSome
  key : r.key = coapHashPath r.uri
  below : ascii "ps/" <+: r.uri.bytes
  chars : ∀ c ∈ r.uri.bytes, c ∈ lfPathChars

/-- The built-in resource. -/
def IsBuiltin (r : CoapResource) : Prop := r = brokerResource

/-- The store and the table agree, and the counter of the store is exact. -/
structure Agreement (b : Broker) : Prop where
  table : TableAgreement IsTopic IsBuiltin b.topicDB.paths b.resources
  exact : b.topicDB.Exact

theorem IsTopic.withSubscribers {r : CoapResource} (h : IsTopic r)
    (subscribers : List CoapSubscription) : IsTopic { r with subscribers } :=
  ⟨h.handler, h.observable, h.ct, h.key, h.below, h.chars⟩

theorem IsBuiltin.not_observable {r : CoapResource} (h : IsBuiltin r) : r.observable = false := by
  rw [h]
  rfl

theorem IsBuiltin.slash_notMem {r : CoapResource} (h : IsBuiltin r) :
    ('/' : Byte) ∉ r.uri.bytes := by
  rw [h]
  decide

/-- A resource with a `/` in its URI has a record. -/
theorem Agreement.mem_paths_of_slash {b : Broker} (hb : Agreement b) {u : CStr}
    (hu : u ∈ b.resources.uris) (hslash : ('/' : Byte) ∈ u.bytes) : u ∈ b.topicDB.paths := by
  obtain ⟨r, hr, rfl⟩ := List.mem_map.1 hu
  rcases hb.table.resource r hr with htopic | hbuiltin
  · exact hb.table.mem_paths_of_isTopic hr htopic
  · exact absurd hslash hbuiltin.slash_notMem

/-! ## New topics -/

/-- The resources topics are created below. -/
def IsParent (r : CoapResource) : Prop := r = brokerResource ∨ IsTopic r

theorem IsParent.below {r : CoapResource} (h : IsParent r) :
    ascii "ps/" <+: r.uri.bytes ++ [('/' : Byte)] := by
  rcases h with rfl | h
  · exact List.prefix_refl _
  · exact h.below.trans (List.prefix_append _ _)

theorem IsParent.chars {r : CoapResource} (h : IsParent r) :
    ∀ c ∈ r.uri.bytes, c ∈ lfPathChars := by
  rcases h with rfl | h
  · exact forall_mem_of_all (by decide)
  · exact h.chars

/-- The link format of an accepted payload, below a resource. -/
def linkFormatBelow (resource : CoapResource) (text : CStr) (p : List Byte)
    (attrs : List (List Byte × List Byte)) : LinkFormat where
  rawData := text
  path := CStr.read (resource.uri.bytes ++ ('/' : Byte) :: p)
  attributeList := attrs.map fun a => ⟨CStr.read a.1, CStr.read a.2,
    coapAttrFlagsReleaseName ||| coapAttrFlagsReleaseValue⟩

/-- A request creates a topic below a resource: the payload is link format for a path and for
    attributes among which there is a content format, the first of which is valid. -/
def Creates (resource : CoapResource) (request : Request) (lfData : LinkFormat) : Prop :=
  ∃ p attrs, LinkText (CStr.read request.data).bytes p attrs ∧
    lfData = linkFormatBelow resource (CStr.read request.data) p attrs ∧
    isMr request lfData = false ∧ isUscf lfData = .ok false

theorem linkAttr_ofLinkFormat (lfData : LinkFormat) (flags : ℕ) :
    (ofLinkFormat lfData flags).linkAttr = lfData.attributeList.reverse ∧
      ofLinkFormat lfData flags =
        { coapResourceInit lfData.path flags with
          linkAttr := (ofLinkFormat lfData flags).linkAttr } := by
  have hfold : ∀ (attrs : List CoapAttr) (r : CoapResource),
      attrs.foldl (fun r data => r.addAttr data.name data.value data.flags) r =
        { r with linkAttr := attrs.reverse ++ r.linkAttr } := by
    intro attrs
    induction attrs with
    | nil => exact fun r => rfl
    | cons a attrs ih =>
      intro r
      rw [List.foldl_cons, ih, List.reverse_cons, List.append_assoc]
      rfl
  rw [ofLinkFormat, hfold]
  exact ⟨List.append_nil _, rfl⟩

namespace Creates

variable {resource : CoapResource} {request : Request} {lfData : LinkFormat}

/-- The path of a new topic. -/
theorem path_eq (h : Creates resource request lfData) :
    ∃ p, p ≠ [] ∧ (∀ c ∈ p, c ∈ lfPathChars) ∧
      lfData.path.bytes = resource.uri.bytes ++ ('/' : Byte) :: p := by
  obtain ⟨p, attrs, ⟨ss, -, hp, -, -⟩, rfl, -⟩ := h
  refine ⟨p, hp.ne_nil, hp.chars, CStr.read_of_notMem fun hm => ?_⟩
  rcases List.mem_append.1 hm with hm | hm
  · exact resource.uri.nul_free hm
  · rcases List.mem_cons.1 hm with h0 | hm
    · exact absurd h0 (by decide)
    · exact hp.notMem (by decide) hm

theorem slash_mem (h : Creates resource request lfData) : ('/' : Byte) ∈ lfData.path.bytes := by
  obtain ⟨p, -, -, hpath⟩ := h.path_eq
  rw [hpath]
  exact List.mem_append_right _ List.mem_cons_self

theorem path_ne_empty (h : Creates resource request lfData) : lfData.path ≠ CStr.empty := by
  obtain ⟨p, -, -, hpath⟩ := h.path_eq
  intro hempty
  rw [hempty] at hpath
  simp at hpath

theorem hasCt (h : Creates resource request lfData) :
    ((ofLinkFormat lfData coapResourceFlagsReleaseUri).findAttr ctName).isSome := by
  obtain ⟨-, -, -, -, hmr, -⟩ := h
  have hct : isCtValid request coapMediatypeApplicationLinkFormat = true ∧
      lfData.isAttributeExist ctName = true := by
    rw [isMr] at hmr
    simpa using hmr
  replace hct := hct.2
  rw [LinkFormat.isAttributeExist, List.any_eq_true] at hct
  obtain ⟨a, ha, hname⟩ := hct
  rw [CoapResource.findAttr, List.find?_isSome, (linkAttr_ofLinkFormat _ _).1]
  exact ⟨a, List.mem_reverse.2 ha, hname⟩

/-- What is registered is a topic. -/
theorem isTopic (h : Creates resource request lfData) (hparent : IsParent resource) :
    IsTopic (asTopic (ofLinkFormat lfData coapResourceFlagsReleaseUri)) where
  handler := rfl
  observable := rfl
  ct := h.hasCt
  key := by
    rw [(linkAttr_ofLinkFormat lfData _).2]
    rfl
  below := by
    obtain ⟨p, -, -, hpath⟩ := h.path_eq
    rw [(linkAttr_ofLinkFormat lfData _).2]
    change ascii "ps/" <+: lfData.path.bytes
    rw [hpath, ← List.singleton_append, ← List.append_assoc]
    exact hparent.below.trans (List.prefix_append _ _)
  chars := by
    obtain ⟨p, -, hp, hpath⟩ := h.path_eq
    rw [(linkAttr_ofLinkFormat lfData _).2]
    change ∀ c ∈ lfData.path.bytes, c ∈ lfPathChars
    rw [hpath]
    intro c hc
    rcases List.mem_append.1 hc with hc | hc
    · exact hparent.chars c hc
    · rcases List.mem_cons.1 hc with rfl | hc
      · decide
      · exact hp c hc

end Creates

theorem uri_ofLinkFormat (lfData : LinkFormat) (flags : ℕ) :
    (ofLinkFormat lfData flags).uri = lfData.path := by
  rw [(linkAttr_ofLinkFormat lfData flags).2]
  rfl

theorem dirty_ofLinkFormat (lfData : LinkFormat) (flags : ℕ) :
    (ofLinkFormat lfData flags).dirty = false := by
  rw [(linkAttr_ofLinkFormat lfData flags).2]
  rfl

end CoapBroker.Cpp
