import CoapBroker.Broker.State
import CoapBroker.Store.Agreement

/-!
# Deleting topics

`hnd_delete_topic`, which deletes a topic and then every resource whose URI contains
that of the topic followed by `/`, wherever it does so. The loop goes over the table
while resources are deleted from it; libcoap's `RESOURCES_ITER` reads the next resource
before the current one is deleted.

`hndDeleteTopic_eq` says what is deleted, for a store and a table that agree.
-/

namespace CoapBroker

/-- What the loop over the table changes. -/
structure DeleteState where
  topicDB : TopicDB
  resources : ResourceTable
  counter : ℕ
  mqtt : List MqttCall

/-- Deleting a topic with its resource, if there is a record for it: a round of the loops
    that delete topics. -/
def DeleteState.deleteTopic (mqttBridge : Bool) (r : CoapResource) (s : DeleteState) :
    DeleteState :=
  match s.topicDB.deleteTopic r.uri with
  | (topicDB, true) =>
    { topicDB
      resources := s.resources.delete r
      counter := s.counter + 1
      mqtt := s.mqtt ++ whenBridged mqttBridge (.unsubscribe r.uri) }
  | (_, false) => s

/-- The loop that deletes the resources with `deletedSubUri` in their URI. -/
def deleteSubtopics (mqttBridge : Bool) (deletedSubUri : List Byte) :
    List CoapResource → DeleteState → DeleteState
  | [], s => s
  | r :: rs, s =>
    if (strstr r.uri.bytes deletedSubUri).isSome then
      deleteSubtopics mqttBridge deletedSubUri rs (s.deleteTopic mqttBridge r)
    else deleteSubtopics mqttBridge deletedSubUri rs s

/-- The deletions of `hnd_delete_topic`: the topic, and if there is one, its subtopics. -/
def deleteTree (mqttBridge : Bool) (resource : CoapResource) (s : DeleteState) : DeleteState :=
  let deletedSubUri := resource.uri.bytes ++ [('/' : Byte)]
  let s := s.deleteTopic mqttBridge resource
  if s.counter ≠ 0 then deleteSubtopics mqttBridge deletedSubUri s.resources s else s

/-- `hnd_delete_topic`. -/
def hndDeleteTopic (b : Broker) (resource : CoapResource) : Broker × Output :=
  let s := deleteTree b.mqttBridge resource
    { topicDB := b.topicDB, resources := b.resources, counter := 0, mqtt := [] }
  let response := (({} : Pdu).setCode (if s.counter ≠ 0 then 202 else 404)).addOption
    coapOptionContentType (coapEncodeVarBytes coapMediatypeTextPlain)
  ({ b with topicDB := s.topicDB, resources := s.resources },
    { response := some (response.addData (decimal s.counter)), mqtt := s.mqtt })

/-! ## What is deleted -/

/-- The calls that unsubscribe from topics. -/
def unsubscribeAll (mqttBridge : Bool) (uris : List CStr) : List MqttCall :=
  uris.flatMap fun u => whenBridged mqttBridge (.unsubscribe u)

/-- Deleting a topic, where its record and its resource are there. -/
theorem DeleteState.deleteTopic_eq (mqttBridge : Bool) {r : CoapResource} (s : DeleteState)
    (hdb : Keyed.Distinct TopicData.path s.topicDB)
    (hres : Keyed.Distinct CoapResource.uri s.resources) (hr : r ∈ s.resources)
    (hpath : r.uri ∈ s.topicDB.paths) :
    s.deleteTopic mqttBridge r = {
      topicDB := s.topicDB.filter fun t => t.path ≠ r.uri
      resources := s.resources.filter fun x => x.uri ≠ r.uri
      counter := s.counter + 1
      mqtt := s.mqtt ++ whenBridged mqttBridge (.unsubscribe r.uri) } := by
  have hdel : s.topicDB.deleteTopic r.uri = (s.topicDB.filter fun t => t.path ≠ r.uri, true) := by
    refine Prod.ext ?_ ?_
    · rw [TopicDB.deleteTopic_fst, Keyed.erase_eq_filter hdb]
    · rw [TopicDB.deleteTopic_snd]
      exact TopicDB.getTopic_isSome.2 hpath
  rw [DeleteState.deleteTopic, hdel]
  dsimp only
  rw [ResourceTable.delete, Keyed.list_erase_eq_filter hres hr]

/-- The loop deletes the topics of the resources it goes over whose URI contains
    `deletedSubUri`. -/
theorem deleteSubtopics_eq (mqttBridge : Bool) (deletedSubUri : List Byte)
    (rs : List CoapResource) (s : DeleteState)
    (hdb : Keyed.Distinct TopicData.path s.topicDB)
    (hres : Keyed.Distinct CoapResource.uri s.resources) (hrs : rs.Sublist s.resources)
    (hpath : ∀ r ∈ rs, deletedSubUri <:+: r.uri.bytes → r.uri ∈ s.topicDB.paths) :
    let us := (rs.map CoapResource.uri).filter fun u => deletedSubUri <:+: u.bytes
    deleteSubtopics mqttBridge deletedSubUri rs s = {
      topicDB := s.topicDB.filter fun t => t.path ∉ us
      resources := s.resources.filter fun x => x.uri ∉ us
      counter := s.counter + us.length
      mqtt := s.mqtt ++ unsubscribeAll mqttBridge us } := by
  induction rs generalizing s with
  | nil => simp [deleteSubtopics, unsubscribeAll]
  | cons r rs ih =>
    have hrs' : rs.Sublist s.resources := (List.sublist_cons_self r rs).trans hrs
    have hpath' : ∀ x ∈ rs, deletedSubUri <:+: x.uri.bytes → x.uri ∈ s.topicDB.paths :=
      fun x hx => hpath x (List.mem_cons_of_mem r hx)
    rw [deleteSubtopics]
    by_cases hsub : deletedSubUri <:+: r.uri.bytes
    · -- after `r`, none of the resources ahead has its URI
      have hne : ∀ x ∈ rs, x.uri ≠ r.uri := by
        have hdist : Keyed.Distinct CoapResource.uri (r :: rs) := hres.sublist hrs
        rw [Keyed.Distinct, List.map_cons, List.nodup_cons] at hdist
        exact fun x hx => Keyed.ne_of_notMem_keys hdist.1 hx
      have hr : r ∈ s.resources := hrs.subset List.mem_cons_self
      rw [if_pos (strstr_isSome.2 hsub),
        DeleteState.deleteTopic_eq mqttBridge s hdb hres hr (hpath r List.mem_cons_self hsub),
        ih _ (hdb.filter _) (hres.filter _) ?_ ?_]
      · simp only [List.map_cons, List.filter_cons, hsub, decide_true, if_true, List.filter_filter,
          List.mem_cons, not_or, ne_eq, List.length_cons, unsubscribeAll, List.flatMap_cons,
          List.append_assoc, Bool.decide_and, Bool.and_comm, Nat.add_assoc, Nat.add_comm 1]
      · refine List.Sublist.trans ?_ (hrs'.filter fun x => x.uri ≠ r.uri)
        rw [List.filter_eq_self.2 fun x hx => decide_eq_true (hne x hx)]
      · intro x hx hxsub
        refine List.mem_map.2 ?_
        obtain ⟨t, ht, htp⟩ := List.mem_map.1 (hpath' x hx hxsub)
        exact ⟨t, List.mem_filter.2 ⟨ht, decide_eq_true (htp ▸ hne x hx)⟩, htp⟩
    · rw [if_neg (mt strstr_isSome.1 hsub), ih s hdb hres hrs' hpath']
      simp only [List.map_cons, List.filter_cons, hsub, decide_false, Bool.false_eq_true, if_false]

/-- The store and the table agree as far as deleting the topic of `resource` goes: the
    resources its URI is contained in have records, and all records have resources. -/
structure Deletable (b : Broker) (resource : CoapResource) : Prop where
  paths : Keyed.Distinct TopicData.path b.topicDB
  uris : Keyed.Distinct CoapResource.uri b.resources
  mem : resource ∈ b.resources
  path_mem : resource.uri ∈ b.topicDB.paths
  record : ∀ r ∈ b.resources,
    resource.uri.bytes ++ [('/' : Byte)] <:+: r.uri.bytes → r.uri ∈ b.topicDB.paths
  registered : ∀ u ∈ b.topicDB.paths, u ∈ b.uris

/-- The URIs the loop finds, the resource of the topic being gone. -/
def subtopicUris (b : Broker) (topic : CStr) : List CStr :=
  ((b.resources.filter fun r => r.uri ≠ topic).map CoapResource.uri).filter
    fun u => topic.bytes ++ [('/' : Byte)] <:+: u.bytes

theorem mem_subtopicUris {b : Broker} {topic u : CStr} (hu : u ∈ b.uris) :
    u ∈ subtopicUris b topic ↔ topic.bytes ++ [('/' : Byte)] <:+: u.bytes := by
  obtain ⟨r, hr, rfl⟩ := List.mem_map.1 hu
  simp only [subtopicUris, List.mem_filter, List.mem_map, decide_eq_true_eq]
  refine ⟨fun h => h.2, fun h => ⟨⟨r, ⟨hr, fun heq => ?_⟩, rfl⟩, h⟩⟩
  rw [heq] at h
  exact not_infix_self topic h

namespace Deletable

variable {b : Broker} {resource : CoapResource}

theorem nodup_subtopicUris (h : Deletable b resource) :
    (resource.uri :: subtopicUris b resource.uri).Nodup := by
  refine List.nodup_cons.2 ⟨fun hm => ?_, List.Nodup.filter _ (h.uris.filter _)⟩
  exact not_infix_self _ ((mem_subtopicUris (List.mem_map_of_mem h.mem)).1 hm)

/-- The URIs found are the paths of the records that are deleted. -/
theorem mem_deleted_iff (h : Deletable b resource) (u : CStr) :
    u ∈ resource.uri :: subtopicUris b resource.uri ↔
      ∃ t ∈ b.topicDB, Deleted resource.uri t.path ∧ t.path = u := by
  rw [List.mem_cons]
  constructor
  · rintro (rfl | hu)
    · obtain ⟨t, ht, htp⟩ := List.mem_map.1 h.path_mem
      exact ⟨t, ht, .inl htp, htp⟩
    · obtain ⟨hmap, hinf⟩ := List.mem_filter.1 hu
      obtain ⟨r, hr, rfl⟩ := List.mem_map.1 hmap
      have hinf := of_decide_eq_true hinf
      obtain ⟨t, ht, htp⟩ := List.mem_map.1 (h.record r (List.mem_filter.1 hr).1 hinf)
      exact ⟨t, ht, .inr (htp ▸ hinf), htp⟩
  · rintro ⟨t, ht, hd | hd, rfl⟩
    · exact .inl hd
    · exact .inr ((mem_subtopicUris (h.registered _ (List.mem_map_of_mem ht))).2 hd)

theorem length_subtopicUris (h : Deletable b resource) :
    (subtopicUris b resource.uri).length + 1 =
      (b.topicDB.filter fun t => Deleted resource.uri t.path).length := by
  have hperm : (resource.uri :: subtopicUris b resource.uri).Perm
      ((b.topicDB.filter fun t => Deleted resource.uri t.path).map TopicData.path) := by
    refine (List.perm_ext_iff_of_nodup h.nodup_subtopicUris (h.paths.filter _)).2 fun u => ?_
    rw [h.mem_deleted_iff, List.mem_map]
    simp only [List.mem_filter, decide_eq_true_eq, and_assoc]
  rw [← List.length_cons, hperm.length_eq, List.length_map]

/-- The URIs that are kept, one test after the other. -/
theorem kept_iff {u : CStr} (hu : u ∈ b.uris) :
    u ∉ subtopicUris b resource.uri ∧ u ≠ resource.uri ↔ ¬Deleted resource.uri u := by
  rw [Deleted, not_or, mem_subtopicUris hu, and_comm]

theorem filter_topicDB (h : Deletable b resource) :
    ((b.topicDB.filter fun t => t.path ≠ resource.uri).filter
      fun t => t.path ∉ subtopicUris b resource.uri) =
      b.topicDB.filter fun t => ¬Deleted resource.uri t.path := by
  rw [List.filter_filter]
  refine List.filter_congr fun t ht => ?_
  rw [← Bool.decide_and, decide_eq_decide]
  exact kept_iff (h.registered _ (List.mem_map_of_mem ht))

theorem filter_resources :
    ((b.resources.filter fun r => r.uri ≠ resource.uri).filter
      fun r => r.uri ∉ subtopicUris b resource.uri) =
      b.resources.filter fun r => ¬Deleted resource.uri r.uri := by
  rw [List.filter_filter]
  refine List.filter_congr fun r hr => ?_
  rw [← Bool.decide_and, decide_eq_decide]
  exact kept_iff (List.mem_map_of_mem hr)

/-- The topic and its subtopics are deleted one after the other. -/
theorem deleteTree_eq (h : Deletable b resource) :
    deleteTree b.mqttBridge resource ⟨b.topicDB, b.resources, 0, []⟩ = {
      topicDB := b.topicDB.filter fun t => ¬Deleted resource.uri t.path
      resources := b.resources.filter fun r => ¬Deleted resource.uri r.uri
      counter := (b.topicDB.filter fun t => Deleted resource.uri t.path).length
      mqtt := unsubscribeAll b.mqttBridge (resource.uri :: subtopicUris b resource.uri) } := by
  have hrecord : ∀ r ∈ b.resources.filter fun r => r.uri ≠ resource.uri,
      resource.uri.bytes ++ [('/' : Byte)] <:+: r.uri.bytes →
        r.uri ∈ TopicDB.paths (b.topicDB.filter fun t => t.path ≠ resource.uri) := by
    intro r hr hinf
    obtain ⟨hr, hne⟩ := List.mem_filter.1 hr
    obtain ⟨t, ht, htp⟩ := List.mem_map.1 (h.record r hr hinf)
    exact List.mem_map.2 ⟨t, List.mem_filter.2 ⟨ht, htp ▸ hne⟩, htp⟩
  rw [deleteTree, DeleteState.deleteTopic_eq b.mqttBridge _ h.paths h.uris h.mem h.path_mem]
  dsimp only
  rw [Nat.zero_add, if_pos one_ne_zero]
  rw [deleteSubtopics_eq _ _ _ _ (h.paths.filter fun t => t.path ≠ resource.uri)
    (h.uris.filter fun r => r.uri ≠ resource.uri)
    (List.Sublist.refl (b.resources.filter fun r => r.uri ≠ resource.uri)) hrecord]
  rw [← h.filter_topicDB, ← filter_resources, ← h.length_subtopicUris, Nat.add_comm]
  rfl

/-- The handler deletes the records and the resources `Deleted` tells, and answers with
    their number. -/
theorem hndDeleteTopic_eq (h : Deletable b resource) :
    hndDeleteTopic b resource =
      ({ b with
          topicDB := b.topicDB.filter fun t => ¬Deleted resource.uri t.path
          resources := b.resources.filter fun r => ¬Deleted resource.uri r.uri },
        { response := some (((({} : Pdu).setCode 202).addOption coapOptionContentType
            (coapEncodeVarBytes coapMediatypeTextPlain)).addData
              (decimal (b.topicDB.filter fun t => Deleted resource.uri t.path).length))
          mqtt := unsubscribeAll b.mqttBridge (resource.uri :: subtopicUris b resource.uri) }) := by
  have hpos : (b.topicDB.filter fun t => Deleted resource.uri t.path).length ≠ 0 := by
    rw [← h.length_subtopicUris]
    exact Nat.succ_ne_zero _
  simp only [hndDeleteTopic, h.deleteTree_eq]
  rw [if_pos hpos]

end Deletable

end CoapBroker
