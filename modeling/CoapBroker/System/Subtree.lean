import CoapBroker.Cpp.Effect
import CoapBroker.System.Agreement

/-!
# Deleting a subtree

A request to delete a topic is meant to delete the topics below it. Both brokers look for
the URI of the topic, followed by `/`, anywhere in the other URIs. So they delete exactly the
subtree if and only if no other topic has it further on (`delete_subtree_iff`).
-/

namespace CoapBroker

/-- The topic itself, or a topic below it. -/
def InSubtree (topic u : CStr) : Prop := u = topic ∨ topic.bytes ++ [('/' : Byte)] <+: u.bytes

instance (topic u : CStr) : Decidable (InSubtree topic u) :=
  inferInstanceAs (Decidable (_ ∨ _))

/-- The paths that contain the topic, followed by `/`, begin with it. -/
def OnlyAtFront (paths : List CStr) (topic : CStr) : Prop :=
  ∀ p ∈ paths, topic.bytes ++ [('/' : Byte)] <:+: p.bytes →
    topic.bytes ++ [('/' : Byte)] <+: p.bytes

instance (paths : List CStr) (topic : CStr) : Decidable (OnlyAtFront paths topic) :=
  inferInstanceAs (Decidable (∀ p ∈ paths, _ → _))

/-- The subtree of a topic has been deleted from the store and the table, nothing else has
    changed, and the answer has the number of topics deleted. -/
def DeletesSubtree (b : Broker) (topic : CStr) (b' : Broker) (out : Output) : Prop :=
  b' = { b with
    topicDB := b.topicDB.filter fun t => ¬InSubtree topic t.path
    resources := b.resources.filter fun r => ¬InSubtree topic r.uri } ∧
  ∃ pdu, out.response = some pdu ∧ pdu.code = coapResponseCode 202 ∧
    pdu.data = decimal (b.topicDB.filter fun t => InSubtree topic t.path).length

/-- The same for the C++ broker, whose answer does not tell the number. -/
def Cpp.DeletesSubtree (b : Cpp.Broker) (topic : CStr) (b' : Cpp.Broker) (out : Output) : Prop :=
  b'.topicDB.nodes = b.topicDB.nodes.filter (fun t => ¬InSubtree topic t.path) ∧
  b' = { b with
    topicDB := b'.topicDB
    resources := b.resources.filter fun r => ¬InSubtree topic r.uri } ∧
  ∃ pdu, out.response = some pdu ∧ pdu.code = coapResponseCode 202

/-! ## What is deleted and what is meant to be -/

theorem InSubtree.deleted {topic u : CStr} (h : InSubtree topic u) : Deleted topic u := by
  rcases h with rfl | h
  · exact .inl rfl
  · exact .inr h.isInfix

theorem deleted_iff {paths : List CStr} {topic : CStr} (h : OnlyAtFront paths topic) {u : CStr}
    (hu : u ∈ paths) : Deleted topic u ↔ InSubtree topic u := by
  refine ⟨?_, InSubtree.deleted⟩
  rintro (rfl | hinf)
  · exact .inl rfl
  · exact .inr (h u hu hinf)

section

variable {α : Type*} {key : α → CStr} {l : List α} {topic : CStr}

/-- When the topic is only at the front of the keys, the same is kept. -/
theorem filter_deleted_eq (h : OnlyAtFront (l.map key) topic) :
    (l.filter fun a => ¬Deleted topic (key a)) = l.filter fun a => ¬InSubtree topic (key a) := by
  refine List.filter_congr fun a ha => ?_
  rw [decide_eq_decide, deleted_iff h (List.mem_map_of_mem ha)]

/-- Keeping the same means that the topic is only at the front of the keys. -/
theorem onlyAtFront_of_filter_eq
    (h : (l.filter fun a => ¬Deleted topic (key a)) = l.filter fun a => ¬InSubtree topic (key a)) :
    OnlyAtFront (l.map key) topic := by
  intro p hp hinf
  obtain ⟨a, ha, rfl⟩ := List.mem_map.1 hp
  by_contra hfront
  have hne : key a ≠ topic := fun heq => not_infix_self topic (heq ▸ hinf)
  have hkept : a ∈ l.filter fun a => ¬Deleted topic (key a) := by
    rw [h]
    exact List.mem_filter.2 ⟨ha, decide_eq_true (not_or.2 ⟨hne, hfront⟩)⟩
  exact of_decide_eq_true (List.mem_filter.1 hkept).2 (.inr hinf)

end

/-! ## The brokers -/

/-- In the table, only topics are deleted. -/
theorem TableAgreement.onlyAtFront_uris {IsTopic IsBuiltin : CoapResource → Prop} {ps : List CStr}
    {t : ResourceTable} {topic : CStr} (ht : TableAgreement IsTopic IsBuiltin ps t)
    (hbuiltin : ∀ r, IsBuiltin r → ('/' : Byte) ∉ r.uri.bytes) (h : OnlyAtFront ps topic) :
    OnlyAtFront (t.map CoapResource.uri) topic := by
  intro u hu hinf
  obtain ⟨r, hr, rfl⟩ := List.mem_map.1 hu
  rcases ht.resource r hr with htopic | hbuilt
  · exact h _ (ht.mem_paths_of_isTopic hr htopic) hinf
  · exact absurd (hinf.subset (by simp)) (hbuiltin r hbuilt)

/-- The resource of a topic. -/
theorem TableAgreement.exists_resource {IsTopic IsBuiltin : CoapResource → Prop} {ps : List CStr}
    {t : ResourceTable} {topic : CStr} (ht : TableAgreement IsTopic IsBuiltin ps t)
    (htopic : topic ∈ ps) :
    ∃ r ∈ t, IsTopic r ∧ r.uri = topic ∧ Keyed.find CoapResource.uri t topic = some r := by
  obtain ⟨r, hr, hrt, rfl⟩ := (ht.mem_paths topic).1 htopic
  exact ⟨r, hr, hrt, rfl, Keyed.find_of_mem ht.uris hr⟩

theorem step_delete_iff {b : Broker} (hb : Agreement b) {topic : CStr}
    (htopic : topic ∈ b.topicDB.paths) (req : Request) (peer : CoapAddress) (token : List Byte)
    (now : ℤ) :
    ∃ b' out, step b (.request topic .delete req peer token now) = .ok (b', out) ∧
      (DeletesSubtree b topic b' out ↔ OnlyAtFront b.topicDB.paths topic) := by
  obtain ⟨r, hr, hrt, rfl, hfind⟩ := hb.exists_resource htopic
  have hstep : step b (.request r.uri .delete req peer token now) = .ok (hndDeleteTopic b r) := by
    have hdel : r.handler.of .delete = some .hndDeleteTopic := by rw [hrt.handler]; rfl
    rw [step, Broker.find, hfind]
    dsimp only
    rw [hdel]
    rfl
  rw [(hb.deletable hr hrt).hndDeleteTopic_eq] at hstep
  refine ⟨_, _, hstep, ?_⟩
  constructor
  · rintro ⟨heq, -⟩
    exact onlyAtFront_of_filter_eq (congrArg Broker.topicDB heq)
  · intro hfront
    have hdb := filter_deleted_eq (l := b.topicDB) hfront
    have hres := filter_deleted_eq
      (hb.onlyAtFront_uris (fun _ h => h.slash_notMem) hfront)
    have hcount : (b.topicDB.filter fun t => Deleted r.uri t.path) =
        b.topicDB.filter fun t => InSubtree r.uri t.path := by
      refine List.filter_congr fun t ht => ?_
      rw [decide_eq_decide, deleted_iff hfront (List.mem_map_of_mem ht)]
    refine ⟨by rw [hdb, hres], _, rfl, ?_, by rw [hcount]; rfl⟩
    rw [Pdu.code_addData, Pdu.code_addOption, Pdu.code_setCode]

theorem Cpp.step_delete_iff {b : Cpp.Broker} (hb : Cpp.Agreement b) {topic : CStr}
    (htopic : topic ∈ b.topicDB.paths) (req : Request) (peer : CoapAddress) (token : List Byte)
    (now : ℤ) :
    ∃ b' out, Cpp.step b (.request topic .delete req peer token now) = .ok (b', out) ∧
      (Cpp.DeletesSubtree b topic b' out ↔ OnlyAtFront b.topicDB.paths topic) := by
  obtain ⟨r, hr, hrt, rfl, hfind⟩ := hb.table.exists_resource htopic
  have hstep : Cpp.step b (.request r.uri .delete req peer token now) =
      .ok (Cpp.hndDeleteTopic b r) := by
    have hdel : r.handler.of .delete = some .hndDeleteTopic := by rw [hrt.handler]; rfl
    rw [Cpp.step, Cpp.Broker.find, hfind]
    dsimp only
    rw [hdel]
    rfl
  obtain ⟨topicDB, hnodes, -, hdelete⟩ := Cpp.hndDeleteTopic_eq hb hr hrt
  rw [hdelete] at hstep
  refine ⟨_, _, hstep, ?_⟩
  constructor
  · rintro ⟨heq, -⟩
    exact onlyAtFront_of_filter_eq (hnodes.symm.trans heq)
  · intro hfront
    have hres := filter_deleted_eq
      (hb.table.onlyAtFront_uris (fun _ h => h.slash_notMem) hfront)
    exact ⟨hnodes.trans (filter_deleted_eq hfront), by dsimp only; rw [hres], _, rfl, rfl⟩

/-- In every reachable state of the two brokers, a request to delete a topic deletes exactly
    its subtree, answering 2.02 and, in the C broker, with the number of topics deleted, if
    and only if no other topic contains its URI followed by `/` but at the front. -/
theorem delete_subtree_iff {mqttBridge rdServer : Bool} {b : Broker}
    (hb : Reachable step (boot mqttBridge rdServer) b) {c : Cpp.Broker}
    (hc : Reachable Cpp.step Cpp.boot c) (topic : CStr) (req : Request) (peer : CoapAddress)
    (token : List Byte) (now : ℤ) :
    (topic ∈ b.topicDB.paths →
      ∃ b' out, step b (.request topic .delete req peer token now) = .ok (b', out) ∧
        (DeletesSubtree b topic b' out ↔ OnlyAtFront b.topicDB.paths topic)) ∧
    (topic ∈ c.topicDB.paths →
      ∃ c' out, Cpp.step c (.request topic .delete req peer token now) = .ok (c', out) ∧
        (Cpp.DeletesSubtree c topic c' out ↔ OnlyAtFront c.topicDB.paths topic)) :=
  ⟨fun htopic => step_delete_iff hb.agreement htopic req peer token now,
    fun htopic => Cpp.step_delete_iff (Cpp.Reachable.agreement hc) htopic req peer token now⟩

/-- A topic with one topic below it and one beside it. -/
theorem delete_subtree_below :
    (∃ b b' out, execRun step (boot false false) [.create "ps" "<a>;ct=0" none 1,
        .create "ps/a" "<b>;ct=0" none 2, .create "ps" "<c>;ct=0" none 3] = .ok b ∧
      step b (.remove "ps/a" 4) = .ok (b', out) ∧ DeletesSubtree b (CStr.lit "ps/a") b' out) ∧
    ∃ b b' out, execRun Cpp.step Cpp.boot [.create "ps" "<a>;ct=0" 1,
        .create "ps/a" "<b>;ct=0" 2, .create "ps" "<c>;ct=0" 3] = .ok b ∧
      Cpp.step b (.remove "ps/a" 4) = .ok (b', out) ∧
      Cpp.DeletesSubtree b (CStr.lit "ps/a") b' out := by
  obtain ⟨b, hb, hmem, hfront⟩ : ∃ b, execRun step (boot false false) [.create "ps" "<a>;ct=0" none 1,
        .create "ps/a" "<b>;ct=0" none 2, .create "ps" "<c>;ct=0" none 3] = .ok b ∧
      CStr.lit "ps/a" ∈ b.topicDB.paths ∧ OnlyAtFront b.topicDB.paths (CStr.lit "ps/a") :=
    ⟨_, rfl, by decide, by decide⟩
  obtain ⟨c, hc, hmem', hfront'⟩ : ∃ c, execRun Cpp.step Cpp.boot [.create "ps" "<a>;ct=0" 1,
        .create "ps/a" "<b>;ct=0" 2, .create "ps" "<c>;ct=0" 3] = .ok c ∧
      CStr.lit "ps/a" ∈ c.topicDB.paths ∧ OnlyAtFront c.topicDB.paths (CStr.lit "ps/a") :=
    ⟨_, rfl, by decide, by decide⟩
  have hboth := delete_subtree_iff (.of_execRun .init hb) (.of_execRun .init hc) (CStr.lit "ps/a")
    { options := [], payload := none } [] [] 4
  obtain ⟨b', out, hstep, hiff⟩ := hboth.1 hmem
  obtain ⟨c', out', hstep', hiff'⟩ := hboth.2 hmem'
  exact ⟨⟨b, b', out, hb, hstep, hiff.2 hfront⟩, c, c', out', hc, hstep', hiff'.2 hfront'⟩

/-- With `ps/a`, both brokers delete `ps/x/ps/a/y`, which is not below it. -/
theorem delete_embedded_topic :
    (∃ b b' out, execRun step (boot false false) [.create "ps" "<a>;ct=0" none 1,
        .create "ps" "<x/ps/a/y>;ct=0" none 2] = .ok b ∧
      step b (.remove "ps/a" 3) = .ok (b', out) ∧ b'.topicDB.paths = [] ∧
      ¬DeletesSubtree b (CStr.lit "ps/a") b' out) ∧
    ∃ b b' out, execRun Cpp.step Cpp.boot [.create "ps" "<a>;ct=0" 1,
        .create "ps" "<x/ps/a/y>;ct=0" 2] = .ok b ∧
      Cpp.step b (.remove "ps/a" 3) = .ok (b', out) ∧ b'.topicDB.paths = [] ∧
      ¬Cpp.DeletesSubtree b (CStr.lit "ps/a") b' out := by
  constructor
  · refine ⟨_, _, _, rfl, rfl, by decide, ?_⟩
    rintro ⟨heq, -⟩
    exact absurd (congrArg (fun b => b.topicDB.length) heq) (by decide)
  · refine ⟨_, _, _, rfl, rfl, by decide, ?_⟩
    rintro ⟨heq, -⟩
    exact absurd (congrArg List.length heq) (by decide)

end CoapBroker
