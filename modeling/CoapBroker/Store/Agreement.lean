import CoapBroker.Libcoap.Resource

/-!
# A store and a table that agree

Both brokers keep their topics twice: as records in a store and as resources in the table
of libcoap, next to some built-in resources. The two agree (`TableAgreement`) when the
paths of the records and the URIs of the resources are distinct and the paths are the URIs
of the topics. What a topic and what a built-in resource is are parameters.

The brokers change both in three ways, which keep the agreement: they change the observers
of a resource, take out the same paths and URIs, and add a topic to both. What both take
out for a request to delete a topic is `Deleted`.
-/

namespace CoapBroker

/-- The paths of a store agree with a table. No resource of the table is dirty. -/
structure TableAgreement (IsTopic IsBuiltin : CoapResource → Prop) (ps : List CStr)
    (t : ResourceTable) : Prop where
  paths : ps.Nodup
  uris : Keyed.Distinct CoapResource.uri t
  resource : ∀ r ∈ t, IsTopic r ∨ IsBuiltin r
  mem_paths : ∀ u, u ∈ ps ↔ ∃ r ∈ t, IsTopic r ∧ r.uri = u
  clean : ∀ r ∈ t, r.dirty = false

namespace TableAgreement

variable {IsTopic IsBuiltin : CoapResource → Prop} {ps : List CStr} {t : ResourceTable}

theorem mem_paths_of_isTopic (ht : TableAgreement IsTopic IsBuiltin ps t) {r : CoapResource}
    (hr : r ∈ t) (htopic : IsTopic r) : r.uri ∈ ps :=
  (ht.mem_paths r.uri).2 ⟨r, hr, htopic, rfl⟩

theorem uri_mem (ht : TableAgreement IsTopic IsBuiltin ps t) {u : CStr} (hu : u ∈ ps) :
    u ∈ t.uris := by
  obtain ⟨r, hr, -, rfl⟩ := (ht.mem_paths u).1 hu
  exact List.mem_map_of_mem hr

/-- A topic and a resource with its URI are the same. -/
theorem isTopic_of_uri_eq (ht : TableAgreement IsTopic IsBuiltin ps t) {r : CoapResource}
    (hr : r ∈ t) (hu : r.uri ∈ ps) : IsTopic r := by
  obtain ⟨x, hx, htopic, heq⟩ := (ht.mem_paths r.uri).1 hu
  rwa [← List.inj_on_of_nodup_map ht.uris hx hr heq]

/-! ## Changing observers -/

/-- Changing observers keeps everything else of the resources, and the resources that are
    not observable. -/
theorem changeObservers_eq_map (huris : Keyed.Distinct CoapResource.uri t) (uri : CStr)
    {f : CoapResource → CoapResource} (hf : ∀ r, ∃ subscribers, f r = { r with subscribers }) :
    ∃ g : CoapResource → CoapResource,
      (∀ r, ∃ subscribers, g r = { r with subscribers } ∧ (r.observable = false → g r = r)) ∧
      t.changeObservers uri f = t.map g := by
  refine ⟨_, fun r => ?_, Keyed.modify_eq_map huris⟩
  obtain ⟨s, hs⟩ := hf r
  split_ifs with h hobs
  · exact ⟨s, hs, fun h0 => absurd (hobs.symm.trans h0) (by decide)⟩
  · exact ⟨r.subscribers, rfl, fun _ => rfl⟩
  · exact ⟨r.subscribers, rfl, fun _ => rfl⟩

/-- Changing the observers of a resource: a topic stays one, and built-in resources are not
    observable. -/
theorem changeObservers (ht : TableAgreement IsTopic IsBuiltin ps t) (uri : CStr)
    {f : CoapResource → CoapResource} (hf : ∀ r, ∃ subscribers, f r = { r with subscribers })
    (htopic : ∀ r subscribers, IsTopic r → IsTopic { r with subscribers })
    (hbuiltin : ∀ r, IsBuiltin r → r.observable = false) :
    TableAgreement IsTopic IsBuiltin ps (t.changeObservers uri f) := by
  -- the table is mapped; a resource keeps its URI, and is a topic as before
  obtain ⟨g, hg, heq⟩ := changeObservers_eq_map ht.uris uri hf
  have huri : ∀ r, (g r).uri = r.uri := fun r => by
    obtain ⟨s, h, -⟩ := hg r
    rw [h]
  have hiff : ∀ r, IsTopic (g r) ↔ IsTopic r := fun r => by
    obtain ⟨s, h, -⟩ := hg r
    rw [h]
    exact ⟨htopic _ r.subscribers, htopic r s⟩
  rw [heq]
  constructor
  · exact ht.paths
  · rw [Keyed.Distinct, List.map_map]
    exact (List.map_congr_left fun r _ => huri r) ▸ ht.uris
  · intro x hx
    obtain ⟨r, hr, rfl⟩ := List.mem_map.1 hx
    rcases ht.resource r hr with h | h
    · exact .inl ((hiff r).2 h)
    · obtain ⟨s, -, hsame⟩ := hg r
      exact .inr ((hsame (hbuiltin r h)).symm ▸ h)
  · intro u
    refine (ht.mem_paths u).trans ⟨?_, ?_⟩
    · rintro ⟨r, hr, h, rfl⟩
      exact ⟨g r, List.mem_map_of_mem hr, (hiff r).2 h, huri r⟩
    · rintro ⟨x, hx, h, rfl⟩
      obtain ⟨r, hr, rfl⟩ := List.mem_map.1 hx
      exact ⟨r, hr, (hiff r).1 h, (huri r).symm⟩
  · intro x hx
    obtain ⟨r, hr, rfl⟩ := List.mem_map.1 hx
    obtain ⟨s, h, -⟩ := hg r
    rw [h]
    exact ht.clean r hr

/-! ## Taking out and adding -/

/-- Taking out the same paths and URIs. -/
theorem filter (ht : TableAgreement IsTopic IsBuiltin ps t) (p : CStr → Prop)
    [DecidablePred p] :
    TableAgreement IsTopic IsBuiltin (ps.filter p) (t.filter fun r => p r.uri) where
  paths := ht.paths.filter _
  uris := ht.uris.filter _
  resource r hr := ht.resource r (List.mem_filter.1 hr).1
  mem_paths u := by
    rw [List.mem_filter, ht.mem_paths]
    constructor
    · rintro ⟨⟨r, hr, htopic, rfl⟩, hp⟩
      exact ⟨r, List.mem_filter.2 ⟨hr, hp⟩, htopic, rfl⟩
    · rintro ⟨r, hr, htopic, rfl⟩
      obtain ⟨hr, hp⟩ := List.mem_filter.1 hr
      exact ⟨⟨r, hr, htopic, rfl⟩, hp⟩
  clean r hr := ht.clean r (List.mem_filter.1 hr).1

/-- Adding a topic to both. -/
theorem add (ht : TableAgreement IsTopic IsBuiltin ps t) {r : CoapResource} (htopic : IsTopic r)
    (hclean : r.dirty = false) (hnot : r.uri ∉ t.uris) :
    TableAgreement IsTopic IsBuiltin (ps ++ [r.uri]) (t.add r) where
  paths := by
    rw [← List.concat_eq_append]
    exact ht.paths.concat fun h => hnot (ht.uri_mem h)
  uris := ht.uris.append_singleton hnot
  resource x hx := by
    rcases List.mem_append.1 hx with hx | hx
    · exact ht.resource x hx
    · exact .inl (List.mem_singleton.1 hx ▸ htopic)
  mem_paths u := by
    rw [List.mem_append, List.mem_singleton, ht.mem_paths]
    constructor
    · rintro (⟨x, hx, hxt, rfl⟩ | rfl)
      · exact ⟨x, List.mem_append_left _ hx, hxt, rfl⟩
      · exact ⟨r, List.mem_append_right _ (List.mem_singleton_self r), htopic, rfl⟩
    · rintro ⟨x, hx, hxt, rfl⟩
      rcases List.mem_append.1 hx with hx | hx
      · exact .inl ⟨x, hx, hxt, rfl⟩
      · exact .inr (by rw [List.mem_singleton.1 hx])
  clean x hx := by
    rcases List.mem_append.1 hx with hx | hx
    · exact ht.clean x hx
    · rw [List.mem_singleton.1 hx, hclean]

end TableAgreement

/-! ## Subtrees -/

/-- The URI `u` is that of the topic `topic`, or contains it followed by `/`. -/
def Deleted (topic u : CStr) : Prop := u = topic ∨ topic.bytes ++ [('/' : Byte)] <:+: u.bytes

instance (topic u : CStr) : Decidable (Deleted topic u) :=
  inferInstanceAs (Decidable (_ ∨ _))

/-- A URI is too short to contain itself followed by `/`. -/
theorem not_infix_self (topic : CStr) : ¬topic.bytes ++ [('/' : Byte)] <:+: topic.bytes := by
  intro h
  have := h.length_le
  rw [List.length_append, List.length_singleton] at this
  omega

end CoapBroker
