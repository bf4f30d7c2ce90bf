import CoapBroker.System.Expiry

/-!
# Echoes of the MQTT bridge

The broker is subscribed to what it publishes, so that every message published to a topic
comes back after a while. It ignores a message whose text is the data of the topic at the
time of the delivery, and takes any other for news.

The system here is the broker together with the messages in flight, in order: requests to
publish to a topic, deliveries and data sweeps come in any order. What the topic should
hold is what the last publish has left of it (`Held`). It holds that in every state of a run
if and only if every message delivered is the echo of what is held (`echoes_harmless_iff`);
when another publish has come in between, or the data has expired, the echo undoes it
(`echo_of_earlier_publish`).
-/

namespace CoapBroker

/-! ## The system -/

/-- The data of a topic, with the time it expires at. -/
structure Held where
  data : Option CStr
  dataMa : ℤ
  deriving DecidableEq

namespace Held

/-- What a request that publishes leaves. -/
def ofPut (req : Request) (now : ℤ) : Held := ⟨publishedData req, dataExpiry req now⟩

/-- What a sweep at `t` leaves. -/
def sweep (held : Held) (t : ℤ) : Held := if Expired held.dataMa t then ⟨none, 0⟩ else held

/-- The message is the echo of what is held: it has its text, or it is empty, there being
    neither data nor a time of expiry. -/
def Echoes (held : Held) (payload : List Byte) : Prop :=
  held.data = some (CStr.read payload) ∨ payload = [] ∧ held = ⟨none, 0⟩

instance (held : Held) (payload : List Byte) : Decidable (held.Echoes payload) :=
  inferInstanceAs (Decidable (_ ∨ _))

end Held

/-- The data in the record of a topic. -/
def stored (db : TopicDB) (topic : CStr) : Option Held :=
  (db.getTopic topic).map fun t => ⟨t.data, t.dataMa⟩

/-- The broker, the messages in flight, and what the topic should hold. -/
structure EchoState where
  broker : Broker
  inFlight : List (List Byte)
  held : Held

/-- An event: a request to publish to the topic, the delivery of the first message in flight,
    or a data sweep. -/
inductive EchoEvent
  | put (req : Request) (peer : CoapAddress) (token : List Byte) (now : ℤ)
  | deliver (now : ℤ)
  | sweep (t : ℤ)

/-- The messages published to a topic. -/
def publishedTo (topic : CStr) (mqtt : List MqttCall) : List (List Byte) :=
  mqtt.filterMap fun
    | .publish uri payload => if uri = topic then some payload else none
    | _ => none

/-- A step of the system. -/
def echoStep (topic : CStr) (s : EchoState) : EchoEvent → Except Fault (EchoState × Output)
  | .put req peer token now => do
    let (broker, out) ← step s.broker (.request topic .put req peer token now)
    let held := if out.code = some (coapResponseCode 204) then .ofPut req now else s.held
    .ok ({ broker, inFlight := s.inFlight ++ publishedTo topic out.mqtt, held }, out)
  | .deliver now =>
    match s.inFlight with
    | [] => .ok (s, {})
    | payload :: inFlight => do
      let (broker, out) ← step s.broker (.arrival topic payload now)
      .ok ({ s with broker, inFlight }, out)
  | .sweep t => do
    let (broker, out) ← step s.broker (.dataSweep fun _ => t)
    .ok ({ s with broker, held := s.held.sweep t }, out)

/-- The system at the beginning: nothing is in flight, and the topic should hold what it
    holds. -/
def echoStart (topic : CStr) (b : Broker) : EchoState where
  broker := b
  inFlight := []
  held := (stored b.topicDB topic).getD ⟨none, 0⟩

/-- The topic holds what it should. -/
def EchoState.Faithful (topic : CStr) (s : EchoState) : Prop :=
  stored s.broker.topicDB topic = some s.held

/-- If a message is delivered, it is the echo of what is held. -/
def EchoState.DeliversEcho (s : EchoState) : EchoEvent → Prop
  | .deliver _ => ∀ payload ∈ s.inFlight.head?, s.held.Echoes payload
  | _ => True

instance (s : EchoState) (e : EchoEvent) : Decidable (s.DeliversEcho e) :=
  match e with
  | .deliver _ => inferInstanceAs (Decidable (∀ payload ∈ s.inFlight.head?, _))
  | .put .. | .sweep _ => .isTrue trivial

/-! ## What the steps of the broker do to the topic -/

/-- What the arrival of a message leaves. -/
def Held.afterArrival (held : Held) (payload : List Byte) : Held :=
  if held.data = some (CStr.read payload) then held
  else ⟨copyData (some payload) payload.length, 0⟩

/-- The arrival of a message leaves what is held if and only if it is its echo. -/
theorem Held.afterArrival_eq_iff {held : Held} {payload : List Byte} :
    held.afterArrival payload = held ↔ held.Echoes payload := by
  rw [afterArrival, Echoes]
  split_ifs with h
  · exact iff_of_true rfl (.inl h)
  · constructor
    · intro heq
      rcases payload with _ | ⟨c, payload⟩
      · exact .inr ⟨rfl, heq.symm⟩
      · -- a message that is not empty is written
        have hcopy : copyData (some (c :: payload)) (c :: payload).length =
            some (CStr.read (c :: payload)) := by
          rw [copyData, if_pos (by exact Nat.succ_pos _), List.take_length]
        exact absurd ((congrArg data heq.symm).trans hcopy) h
    · rintro (hdata | ⟨rfl, hnone⟩)
      · exact absurd hdata h
      · rw [hnone]
        rfl

section

variable {b b' : Broker} {topic : CStr} {out : Output}

theorem stored_updateTopicData {db : TopicDB} (dataMa : ℤ) (data : Option (List Byte)) (n : ℕ) :
    stored (db.updateTopicData topic dataMa data n).1 topic =
      (stored db topic).map fun _ => ⟨copyData data n, dataMa⟩ := by
  rw [stored, TopicDB.updateTopicData_fst, TopicDB.getTopic, Keyed.find_modify (by exact fun _ => rfl),
    if_pos rfl, stored, TopicDB.getTopic, Option.map_map, Option.map_map]
  rfl

/-- A request to publish leaves its data when it is accepted. -/
theorem stored_put {req : Request} {peer : CoapAddress} {token : List Byte} {now : ℤ}
    (hb : Agreement b) (h : step b (.request topic .put req peer token now) = .ok (b', out)) :
    stored b'.topicDB topic = (stored b.topicDB topic).map fun held =>
      if out.code = some (coapResponseCode 204) then .ofPut req now else held := by
  rcases step_put_cases hb h with
    ⟨rfl, hne⟩ | ⟨target, ct, t, observe, ns, -, -, -, -, -, rfl, rfl⟩
  · simp only [if_neg hne]
    exact Option.map_id'.symm
  · exact stored_updateTopicData _ _ _

/-- The arrival of a message for a topic that is there. -/
theorem stored_arrival {payload : List Byte} {now : ℤ} (hb : Agreement b)
    (htopic : (stored b.topicDB topic).isSome)
    (h : step b (.arrival topic payload now) = .ok (b', out)) :
    stored b'.topicDB topic =
      (stored b.topicDB topic).map fun held => held.afterArrival payload := by
  rw [stored, Option.isSome_map] at htopic
  obtain ⟨t, ht⟩ := Option.isSome_iff_exists.1 htopic
  have hstored : stored b.topicDB topic = some ⟨t.data, t.dataMa⟩ := by rw [stored, ht]; rfl
  obtain ⟨r, hr⟩ := Option.isSome_iff_exists.1
    (Keyed.find_isSome.2 (hb.uri_mem (TopicDB.mem_paths_of_getTopic ht)))
  have huri : r.uri = topic := Keyed.key_of_find hr
  rw [step] at h
  rcases harr : msgarrvd b topic payload now with f | ⟨b₁, out₁, found⟩ <;> rw [harr] at h
  · cases h
  cases h
  rw [hstored, Option.map_some, Held.afterArrival]
  rcases msgarrvd_cases hb.clean harr with
    ⟨rfl, -, hsame⟩ | ⟨r', t', observe, ns, hr', ht', hdata, rfl, rfl⟩
  · have hdata : t.data = some (CStr.read payload) := hsame r t hr (huri ▸ ht)
    rw [if_pos hdata, hstored]
  · cases hr.symm.trans hr'
    rw [huri] at ht'
    cases ht.symm.trans ht'
    rw [if_neg hdata, stored_updateTopicData, hstored]
    rfl

/-- A data sweep. -/
theorem stored_sweep (hb : Agreement b) (hgate : GateBelow b) (t : ℤ) :
    stored (topicDataMAMonitor b fun _ => t).topicDB topic =
      (stored b.topicDB topic).map fun held => held.sweep t := by
  have hfind : (topicDataMAMonitor b fun _ => t).topicDB.getTopic topic =
      (b.topicDB.getTopic topic).map fun x =>
        if x.dataMa ≠ 0 ∧ x.dataMa < t then clearData x else x := by
    rw [topicDataMAMonitor_ungated hb hgate]
    exact Keyed.find_map fun x => by split_ifs <;> rfl
  rw [stored, hfind, stored, Option.map_map, Option.map_map]
  congr 1
  funext x
  by_cases hexp : x.dataMa ≠ 0 ∧ x.dataMa < t
  · rw [Function.comp_apply, Function.comp_apply, if_pos hexp, Held.sweep, if_pos (by exact hexp.symm)]
    rfl
  · rw [Function.comp_apply, Function.comp_apply, if_neg hexp, Held.sweep,
      if_neg (by exact fun h => hexp h.symm)]

end

/-! ## Every step -/

/-- What every state of the system satisfies. -/
structure EchoInv (topic : CStr) (s : EchoState) : Prop where
  agreement : Agreement s.broker
  gate : GateBelow s.broker
  isSome : (stored s.broker.topicDB topic).isSome

/-- A step keeps the topic holding what it should if and only if the message it delivers, if
    it does so, is the echo of what is held. -/
theorem echoStep_spec {topic : CStr} {s s' : EchoState} {e : EchoEvent} {out : Output}
    (hs : EchoInv topic s) (h : echoStep topic s e = .ok (s', out)) :
    EchoInv topic s' ∧ (s.Faithful topic → (s'.Faithful topic ↔ s.DeliversEcho e)) := by
  obtain ⟨hb, hgate, hsome⟩ := hs
  have hinv : ∀ {e : Event} {b' : Broker} {out : Output} {f : Held → Held},
      step s.broker e = .ok (b', out) → e.ReadsForward →
      stored b'.topicDB topic = (stored s.broker.topicDB topic).map f →
      Agreement b' ∧ GateBelow b' ∧ (stored b'.topicDB topic).isSome := by
    intro e b' out f hstep hread hstored
    have heff := step_effect hb hstep
    exact ⟨heff.agreement hb, heff.gateBelow hb hgate hread,
      by rw [hstored, Option.isSome_map]; exact hsome⟩
  cases e with
  | put req peer token now =>
    rw [echoStep] at h
    rcases hstep : step s.broker (.request topic .put req peer token now) with f | ⟨b', out'⟩ <;>
      rw [hstep] at h
    · cases h
    cases h
    have hstored := stored_put hb hstep
    obtain ⟨hb', hgate', hsome'⟩ := hinv hstep trivial hstored
    refine ⟨⟨hb', hgate', hsome'⟩, fun hfaith => iff_of_true ?_ trivial⟩
    rw [EchoState.Faithful] at hfaith ⊢
    rw [hstored, hfaith]
    rfl
  | deliver now =>
    rw [echoStep] at h
    rcases hq : s.inFlight with _ | ⟨payload, inFlight⟩ <;> rw [hq] at h
    · -- nothing is in flight
      cases h
      refine ⟨⟨hb, hgate, hsome⟩, fun hfaith => iff_of_true hfaith fun payload hp => ?_⟩
      rw [hq] at hp
      cases hp
    dsimp only at h
    rcases hstep : step s.broker (.arrival topic payload now) with f | ⟨b', out'⟩ <;>
      rw [hstep] at h
    · cases h
    cases h
    have hstored := stored_arrival hb hsome hstep
    obtain ⟨hb', hgate', hsome'⟩ := hinv hstep trivial hstored
    refine ⟨⟨hb', hgate', hsome'⟩, fun hfaith => ?_⟩
    rw [EchoState.Faithful] at hfaith ⊢
    rw [hstored, hfaith, Option.map_some, Option.some.injEq, Held.afterArrival_eq_iff,
      EchoState.DeliversEcho, hq]
    exact ⟨fun hecho p hp => by cases hp; exact hecho, fun hecho => hecho payload rfl⟩
  | sweep t =>
    cases h
    have hstored : stored (topicDataMAMonitor s.broker fun _ => t).topicDB topic =
        (stored s.broker.topicDB topic).map fun held => held.sweep t := stored_sweep hb hgate t
    obtain ⟨hb', hgate', hsome'⟩ := hinv (e := .dataSweep fun _ => t) rfl (fun _ => le_rfl) hstored
    refine ⟨⟨hb', hgate', hsome'⟩, fun hfaith => iff_of_true ?_ trivial⟩
    rw [EchoState.Faithful] at hfaith ⊢
    rw [hstored, hfaith]
    rfl

/-! ## Every run -/

/-- From any reachable state with the topic and nothing in flight: in every state of a run the
    topic holds what the last publish has left, if and only if every message delivered is the
    echo of what is held. -/
theorem echoes_harmless_iff (rdServer : Bool) {tr₀ : List (Transition Broker Event Output)}
    {b : Broker} (h₀ : Run step (boot true rdServer) tr₀ b) (hread : ∀ x ∈ tr₀, x.ev.ReadsForward)
    {topic : CStr} (htopic : topic ∈ b.topicDB.paths)
    {tr : List (Transition EchoState EchoEvent Output)} {s : EchoState}
    (h : Run (echoStep topic) (echoStart topic b) tr s) :
    (∀ x ∈ tr, x.dst.Faithful topic) ↔ ∀ x ∈ tr, x.src.DeliversEcho x.ev := by
  have hsome : (stored b.topicDB topic).isSome := by
    rw [stored, Option.isSome_map]
    exact TopicDB.getTopic_isSome.2 htopic
  have hinv : EchoInv topic (echoStart topic b) :=
    ⟨Reachable.agreement ⟨tr₀, h₀⟩, gateBelow_of_run h₀ hread, hsome⟩
  have hfaith : (echoStart topic b).Faithful topic := by
    obtain ⟨held, hheld⟩ := Option.isSome_iff_exists.1 hsome
    change stored b.topicDB topic = some ((stored b.topicDB topic).getD ⟨none, 0⟩)
    rw [hheld]
    rfl
  exact h.forall_dst_iff hinv hfaith fun _ _ _ _ hinv hstep => echoStep_spec hinv hstep

/-- A request that publishes text to a topic of content format 0. -/
def EchoEvent.publish (text : String) (maxAge : Option ℕ) (now : ℤ) : EchoEvent :=
  .put
    { options := ⟨coapOptionContentType, []⟩ ::
        (maxAge.map fun v => ⟨coapOptionMaxage, coapEncodeVarBytes v⟩).toList
      payload := some (ascii text) } [] [] now

/-- One publish whose echo arrives before the data expires. -/
theorem echoes_harmless_once :
    ∃ b tr s, execRun step (boot true false) [.create "ps" "<a>;ct=0" none 1] = .ok b ∧
      execTrace (echoStep (CStr.lit "ps/a")) (echoStart (CStr.lit "ps/a") b)
        [.publish "x" (some 5) 2, .deliver 3, .sweep 8] = .ok (tr, s) ∧
      (∀ x ∈ tr, x.dst.Faithful (CStr.lit "ps/a")) ∧ s.held = ⟨none, 0⟩ := by
  obtain ⟨b, hb, htopic, tr, s, hs, hecho, hheld⟩ :
      ∃ b, execRun step (boot true false) [.create "ps" "<a>;ct=0" none 1] = .ok b ∧
        CStr.lit "ps/a" ∈ b.topicDB.paths ∧
        ∃ tr s, execTrace (echoStep (CStr.lit "ps/a")) (echoStart (CStr.lit "ps/a") b)
          [.publish "x" (some 5) 2, .deliver 3, .sweep 8] = .ok (tr, s) ∧
        (∀ x ∈ tr, x.src.DeliversEcho x.ev) ∧ s.held = ⟨none, 0⟩ :=
    ⟨_, rfl, by decide, _, _, rfl, by decide, by decide⟩
  obtain ⟨tr₀, h₀, hev⟩ := Run.of_execRun .nil hb
  have hread : ∀ x ∈ tr₀, x.ev.ReadsForward := by
    intro x hx
    have hmem : x.ev ∈ tr₀.map Transition.ev := List.mem_map_of_mem hx
    rw [hev, List.mem_singleton] at hmem
    rw [hmem]
    trivial
  have hrun := (Run.nil.of_execTrace hs).1
  exact ⟨b, tr, s, hb, hs, (echoes_harmless_iff false h₀ hread htopic hrun).2 hecho, hheld⟩

/-- The echo of the first of two publishes replaces the data of the second; and an echo that
    arrives after the data has expired and been swept restores it, for ever. -/
theorem echo_of_earlier_publish :
    ∃ b, execRun step (boot true false) [.create "ps" "<a>;ct=0" none 1] = .ok b ∧
      (∃ s, execRun (echoStep (CStr.lit "ps/a")) (echoStart (CStr.lit "ps/a") b)
          [.publish "x" none 2, .publish "y" none 3, .deliver 4] = .ok s ∧
        s.held = ⟨some (CStr.lit "y"), 0⟩ ∧
        stored s.broker.topicDB (CStr.lit "ps/a") = some ⟨some (CStr.lit "x"), 0⟩) ∧
      ∃ s, execRun (echoStep (CStr.lit "ps/a")) (echoStart (CStr.lit "ps/a") b)
          [.publish "x" (some 5) 2, .sweep 8, .deliver 9] = .ok s ∧
        s.held = ⟨none, 0⟩ ∧
        stored s.broker.topicDB (CStr.lit "ps/a") = some ⟨some (CStr.lit "x"), 0⟩ :=
  ⟨_, rfl, ⟨_, rfl, by decide, by decide⟩, _, rfl, by decide, by decide⟩

end CoapBroker
