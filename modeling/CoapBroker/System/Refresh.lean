import CoapBroker.System.Agreement

/-!
# Renewing the expiry of a topic

A request to create a topic that exists renews its expiry and is answered 4.03. The record is
written by `setTopic`, as a whole: with the data it has, whose length is measured again. An empty
string, which is what a payload that begins with a `NUL` is stored as, has no length and becomes
absent data. This is the only thing that can go wrong (`refresh_changes_only_lifetime_iff`).
-/

namespace CoapBroker

/-- A step has changed nothing but the expiry of the topic with the path `u`, and perhaps the
    earliest one of all; a request to read any topic has the same answer as before. -/
structure ChangesOnlyLifetime (b b' : Broker) (u : CStr) (topicMa : ℤ) : Prop where
  topicDB : b'.topicDB = Keyed.modify TopicData.path u (fun t => { t with topicMa }) b.topicDB
  others : b' = { b with
    topicDB := b'.topicDB
    earliestTopicMaxAge := lowerEarliest b.earliestTopicMaxAge topicMa }
  reads : ∀ uri req peer token now,
    (step b' (.request uri .get req peer token now)).map Prod.snd =
      (step b (.request uri .get req peer token now)).map Prod.snd

/-- What is read from a topic does not depend on when it expires. -/
theorem hndGetTopic_topicMa {b b' : Broker} {u : CStr} {topicMa : ℤ}
    (hdb : b'.topicDB = Keyed.modify TopicData.path u (fun t => { t with topicMa }) b.topicDB)
    (hobserve : b'.observe = b.observe) (resource : CoapResource) (peer : CoapAddress)
    (token : List Byte) (request : Option Request) (now : ℤ) :
    hndGetTopic b' resource peer token request now =
      hndGetTopic b resource peer token request now := by
  have hclone : b'.topicDB.cloneTopic resource.uri =
      if resource.uri = u then (b.topicDB.cloneTopic resource.uri).map fun t => { t with topicMa }
      else b.topicDB.cloneTopic resource.uri := by
    rw [hdb]
    exact Keyed.find_modify (f := fun t : TopicData => { t with topicMa }) fun _ => rfl
  rw [hndGetTopic, hndGetTopic, hclone, hobserve]
  split_ifs
  · rcases b.topicDB.cloneTopic resource.uri with _ | temp <;> rfl
  · rfl

/-- Requests to read have the same answers when only the expiry of a topic is another one. -/
theorem step_get_topicMa {b b' : Broker} {u : CStr} {topicMa : ℤ} (hb : Agreement b)
    (hdb : b'.topicDB = Keyed.modify TopicData.path u (fun t => { t with topicMa }) b.topicDB)
    (hres : b'.resources = b.resources) (hobserve : b'.observe = b.observe) (uri : CStr)
    (req : Request) (peer : CoapAddress) (token : List Byte) (now : ℤ) :
    (step b' (.request uri .get req peer token now)).map Prod.snd =
      (step b (.request uri .get req peer token now)).map Prod.snd := by
  have hfind' : b'.find uri = b.find uri := by rw [Broker.find, Broker.find, hres]
  rcases hfind : b.find uri with _ | r
  · rw [step, step, hfind', hfind]
    rfl
  rcases hb.resource r (Broker.find_spec hfind).1 with htopic | rfl | rfl
  · rw [step_get hfind htopic, step_get (hfind'.trans hfind) htopic,
      hndGetTopic_topicMa hdb hobserve]
    rcases hndGetTopic b r peer token (some req) now with f | response <;> rfl
  · rw [step, step, hfind', hfind]
    rfl
  · rw [step, step, hfind', hfind]
    rfl

/-- The data of the record that is written back is as before unless it is an empty string. -/
theorem TopicDB.normData_eq_iff {data : Option CStr} :
    normData data = data ↔ data ≠ some CStr.empty := by
  rcases data with _ | d
  · exact iff_of_true rfl nofun
  · by_cases hd : d = CStr.empty
    · rw [hd]
      decide
    · simp [normData, Option.filter, hd]

/-- In every reachable state, a request answered 4.03 is about a topic that exists, and changes
    nothing but its lifetime exactly if its data is not an empty string. -/
theorem refresh_changes_only_lifetime_iff {mqttBridge rdServer : Bool} {b b' : Broker}
    (hb : Reachable step (boot mqttBridge rdServer) b) {uri : CStr} {req : Request}
    {peer : CoapAddress} {token : List Byte} {now : ℤ} {out : Output}
    (hstep : step b (.request uri .post req peer token now) = .ok (b', out))
    (hcode : out.code = some (coapResponseCode 403)) :
    ∃ target r t, b.find uri = some target ∧ Creates target req r ∧
      b.topicDB.getTopic r.uri = some t ∧
      (ChangesOnlyLifetime b b' r.uri (topicExpiry req now) ↔ t.data ≠ some CStr.empty) := by
  have hagree := hb.agreement
  rcases step_post_cases hagree hstep with
    ⟨-, -, hne⟩ | ⟨target, r, hfind, -, hr, ⟨hmem, heq⟩ | ⟨-, heq⟩⟩
  · exact absurd hcode hne
  · obtain ⟨p, -, -, huri⟩ := hr.uri_eq
    have hslash : ('/' : Byte) ∈ r.uri.bytes := huri ▸ by simp
    obtain ⟨t, ht⟩ := Option.isSome_iff_exists.1
      (TopicDB.getTopic_isSome.2 ((hagree.mem_uris_iff hslash).1 hmem))
    refine ⟨target, r, t, hfind, hr, ht, ?_⟩
    cases heq
    -- an update changes only the lifetime exactly if it stores the data as it was
    have hdb : ∀ data : TopicData → Option CStr, Keyed.modify TopicData.path r.uri
        (fun t => { t with data := data t, topicMa := topicExpiry req now }) b.topicDB =
        Keyed.modify TopicData.path r.uri
          (fun t => { t with topicMa := topicExpiry req now }) b.topicDB ↔ data t = t.data := by
      intro data
      rw [Keyed.modify_eq_modify_iff ht, TopicData.mk.injEq]
      simp only [and_true, true_and]
    constructor
    · rintro ⟨htopic, -, -⟩
      rw [← TopicDB.normData_eq_iff, ← hdb fun t => TopicDB.normData t.data, ← htopic]
      exact (TopicDB.updateTopicInfo_fst _).symm
    · intro hdata
      have htopic := (TopicDB.updateTopicInfo_fst (topicExpiry req now)).trans
        ((hdb fun t => TopicDB.normData t.data).2 (TopicDB.normData_eq_iff.2 hdata))
      exact ⟨htopic, rfl, @step_get_topicMa b (topicExists b r (topicExpiry req now)).1 r.uri
        (topicExpiry req now) hagree htopic rfl rfl⟩
  · obtain rfl : out = (topicCreated b r (topicExpiry req now)).2 := congrArg Prod.snd heq
    rw [code_topicCreated] at hcode
    exact absurd hcode (by decide)

/-- The expiry of a topic with data is renewed. -/
theorem refresh_changes_only_lifetime_data :
    ∃ b b' out, ∃ r : CoapResource, ∃ t,
      step b (.create "ps" "<a>;ct=0" (some 10) 2) = .ok (b', out) ∧
      out.code = some (coapResponseCode 403) ∧ b.topicDB.getTopic r.uri = some t ∧
      t.data = some (CStr.lit "x") ∧ ChangesOnlyLifetime b b' r.uri 12 := by
  obtain ⟨b, b', out, hrun, hstep, hcode, hdata⟩ : ∃ b b' out, execRun step (boot false false)
      [.create "ps" "<a>;ct=0" none 1, .publish "ps/a" 0 "x" none 1] = .ok b ∧
      step b (.create "ps" "<a>;ct=0" (some 10) 2) = .ok (b', out) ∧
      out.code = some (coapResponseCode 403) ∧ ∀ t ∈ b.topicDB, t.data = some (CStr.lit "x") :=
    ⟨_, _, _, rfl, rfl, by decide, by decide⟩
  obtain ⟨target, r, t, -, -, ht, hiff⟩ :=
    refresh_changes_only_lifetime_iff (Reachable.init.of_execRun hrun) hstep hcode
  have hx : t.data = some (CStr.lit "x") := hdata t (Keyed.mem_of_find ht)
  exact ⟨b, b', out, r, t, hstep, hcode, ht, hx, hiff.2 (hx ▸ by decide)⟩

/-- Published data that begins with a `NUL` is lost when the expiry of its topic is renewed, and
    the answer to a request to read it is another one. -/
theorem refresh_loses_data :
    ∃ b b' out, execRun step (boot false false)
        [.create "ps" "<a>;ct=0" none 1, .publish "ps/a" 0 "\x00" none 1] = .ok b ∧
      step b (.create "ps" "<a>;ct=0" none 2) = .ok (b', out) ∧
      out.code = some (coapResponseCode 403) ∧
      b.topicDB = [⟨CStr.lit "ps/a", some CStr.empty, 0, 0⟩] ∧
      b'.topicDB = [⟨CStr.lit "ps/a", none, 0, 0⟩] ∧
      (∃ read, step b (.read "ps/a" 2) = .ok (b, read) ∧
        read.code = some (coapResponseCode 205)) ∧
      ∃ read, step b' (.read "ps/a" 2) = .ok (b', read) ∧
        read.code = some (coapResponseCode 204) :=
  ⟨_, _, _, rfl, rfl, by decide, by decide, by decide, ⟨_, rfl, by decide⟩, _, rfl, by decide⟩

end CoapBroker
