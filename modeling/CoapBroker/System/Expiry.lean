import CoapBroker.System.Agreement

/-!
# The expiry gate

A sweep goes through the store only if the earliest expiry the broker knows of has passed.
This loses nothing (`sweeps_ungated`): as long as the clock does not go back within a
sweep, the earliest expiries are below the expiries of all records (`GateBelow`), also the
ones a sweep computes, which leaves out the records that expire at the earliest expiry so
far: these are gone after the sweep.
-/

namespace CoapBroker

/-- The earliest expiries are below all expiries. -/
structure GateBelow (b : Broker) : Prop where
  data : ∀ t ∈ b.topicDB, t.dataMa ≠ 0 → b.earliestDataMaxAge ≤ t.dataMa
  topic : ∀ t ∈ b.topicDB, t.topicMa ≠ 0 → b.earliestTopicMaxAge ≤ t.topicMa

/-- Within a sweep, the clock does not go back behind its first reading. -/
def Event.ReadsForward : Event → Prop
  | .dataSweep time | .topicSweep time => ∀ i, time 0 ≤ time (i + 1)
  | _ => True

/-- After a sweep, the earliest expiry is below the ones of the records that are kept. -/
theorem earliestAfter_le_of_kept {ma : TopicData → ℤ} {time : ℕ → ℤ} {earliest : ℤ}
    {db : TopicDB} (hread : ∀ i, time 0 ≤ time (i + 1)) (hgate : earliest < time 0)
    {t : TopicData} (ht : t ∈ db) (hkept : t.path ∉ expiredPaths ma time 0 db) (h0 : ma t ≠ 0) :
    earliestAfter ma earliest longMax db ≤ ma t := by
  obtain ⟨i, hi⟩ := exists_not_expired ht hkept
  have hle : time (i + 1) ≤ ma t := not_lt.1 fun hlt => hi ⟨hlt, h0⟩
  refine earliestAfter_le_of_mem ht h0 fun heq => ?_
  have := hread i
  omega

/-- Changing a record keeps an earliest expiry below all expiries, if it has been lowered below
    the new one. -/
theorem below_modify {ma : TopicData → ℤ} {earliest earliest' : ℤ} {path : CStr}
    {f : TopicData → TopicData} {db : TopicDB} (hle : earliest' ≤ earliest)
    (h : ∀ t ∈ db, ma t ≠ 0 → earliest ≤ ma t)
    (hf : ∀ t ∈ db, ma (f t) ≠ 0 → earliest' ≤ ma (f t)) :
    ∀ t ∈ Keyed.modify TopicData.path path f db, ma t ≠ 0 → earliest' ≤ ma t := by
  intro t ht h0
  rcases Keyed.mem_modify ht with ht | ⟨x, hx, -, rfl⟩
  · exact hle.trans (h t ht h0)
  · exact hf x hx h0

/-- The same for a new record. -/
theorem below_concat {ma : TopicData → ℤ} {earliest earliest' : ℤ} {x : TopicData}
    {db : TopicDB} (hle : earliest' ≤ earliest) (h : ∀ t ∈ db, ma t ≠ 0 → earliest ≤ ma t)
    (hx : ma x ≠ 0 → earliest' ≤ ma x) :
    ∀ t ∈ db ++ [x], ma t ≠ 0 → earliest' ≤ ma t := by
  intro t ht h0
  rcases List.mem_append.1 ht with ht | ht
  · exact hle.trans (h t ht h0)
  · rw [List.mem_singleton.1 ht] at h0 ⊢
    exact hx h0

theorem GateBelow.dataSwept {b : Broker} (h : GateBelow b) (hb : Agreement b) {time : ℕ → ℤ}
    (hread : ∀ i, time 0 ≤ time (i + 1)) : GateBelow (topicDataMAMonitor b time) := by
  rw [topicDataMAMonitor_eq hb.paths]
  split_ifs with hskip
  · exact h
  have hlt : b.earliestDataMaxAge < time 0 := not_le.1 fun hle => hskip (.inr hle)
  constructor
  · intro t ht h0
    obtain ⟨x, hx, rfl⟩ := List.mem_map.1 ht
    split_ifs at h0 ⊢ with hexp
    · exact absurd rfl h0
    · exact earliestAfter_le_of_kept hread hlt hx hexp h0
  · intro t ht h0
    obtain ⟨x, hx, rfl⟩ := List.mem_map.1 ht
    split_ifs at h0 ⊢
    · exact h.topic x hx h0
    · exact h.topic x hx h0

theorem GateBelow.topicSwept {b : Broker} (h : GateBelow b) (hb : Agreement b) {time : ℕ → ℤ}
    (hread : ∀ i, time 0 ≤ time (i + 1)) : GateBelow (topicMAMonitor b time).1 := by
  rw [topicMAMonitor_eq hb.paths hb.uris fun u hu => hb.uri_mem hu]
  split_ifs with hskip
  · exact h
  have hlt : b.earliestTopicMaxAge < time 0 := not_le.1 fun hle => hskip (.inr hle)
  constructor
  · exact fun t ht => h.data t (List.mem_filter.1 ht).1
  · intro t ht h0
    obtain ⟨ht, hkept⟩ := List.mem_filter.1 ht
    exact earliestAfter_le_of_kept hread hlt ht (of_decide_eq_true hkept) h0

/-- Every step keeps the earliest expiries below all expiries. -/
theorem Effect.gateBelow {b b' : Broker} {e : Event} {out : Output} (h : Effect b e b' out)
    (hb : Agreement b) (hgate : GateBelow b) (hread : e.ReadsForward) : GateBelow b' := by
  cases h with
  | idle observe h => exact ⟨hgate.data, hgate.topic⟩
  | observers uri f hf h => exact ⟨hgate.data, hgate.topic⟩
  | @refreshed uri req peer token now target r htarget hparent hr hmem =>
    have hle := lowerEarliest_le b.earliestTopicMaxAge (topicExpiry req now)
    have hset := @TopicDB.updateTopicInfo_fst b.topicDB r.uri (topicExpiry req now)
    constructor
    · rw [topicExists, hset]
      exact below_modify le_rfl hgate.data hgate.data
    · rw [topicExists, hset]
      exact below_modify hle hgate.topic fun x _ h0 => lowerEarliest_le_of_ne h0
  | @created uri req peer token now target r htarget hparent hr hnot =>
    have hle := lowerEarliest_le b.earliestTopicMaxAge (topicExpiry req now)
    have hadd := TopicDB.addTopicWEC_of_notMem (fun h => hnot (hb.uri_mem h)) hr.length_pos
      (topicExpiry req now)
    constructor
    · rw [topicCreated, hadd]
      exact below_concat le_rfl hgate.data fun h0 => absurd rfl h0
    · rw [topicCreated, hadd]
      exact below_concat hle hgate.topic lowerEarliest_le_of_ne
  | @published uri req peer token now target ct observe ns htarget htopic hct hopt =>
    have hle := lowerEarliest_le b.earliestDataMaxAge (dataExpiry req now)
    constructor
    · rw [TopicDB.updateTopicData_fst]
      exact below_modify hle hgate.data fun x _ h0 => lowerEarliest_le_of_ne h0
    · rw [TopicDB.updateTopicData_fst]
      exact below_modify le_rfl hgate.topic hgate.topic
  | deleted htarget htopic =>
    exact ⟨fun t ht => hgate.data t (List.mem_filter.1 ht).1,
      fun t ht => hgate.topic t (List.mem_filter.1 ht).1⟩
  | dataSwept time => exact hgate.dataSwept hb hread
  | topicSwept time => exact hgate.topicSwept hb hread
  | @arrived topicName payload now r t observe ns hfind hclone hdata =>
    -- What comes from the MQTT side never expires: its expiry is 0.
    constructor
    · rw [TopicDB.updateTopicData_fst]
      exact below_modify le_rfl hgate.data fun x _ h0 => absurd rfl h0
    · rw [TopicDB.updateTopicData_fst]
      exact below_modify le_rfl hgate.topic hgate.topic

/-- Below all expiries, a time that the earliest expiry does not lie before expires nothing. -/
theorem not_expired {earliest ma t : ℤ} (hgate : ma ≠ 0 → earliest ≤ ma) (h : t ≤ earliest) :
    ¬Expired ma t :=
  fun hexp => absurd hexp.1 (not_lt.2 (h.trans (hgate hexp.2)))

theorem gateBelow_of_run {mqttBridge rdServer : Bool} {tr : List (Transition Broker Event Output)}
    {b : Broker} (h : Run step (boot mqttBridge rdServer) tr b)
    (hread : ∀ x ∈ tr, x.ev.ReadsForward) : GateBelow b := by
  refine h.invariant_trace (P := fun tr b => (∀ x ∈ tr, x.ev.ReadsForward) → GateBelow b)
    (fun _ => ⟨fun t ht => absurd ht List.not_mem_nil, fun t ht => absurd ht List.not_mem_nil⟩)
    (fun tr b e out b' hrun ih hstep hread => ?_) hread
  have hb : Agreement b := Reachable.agreement ⟨tr, hrun⟩
  exact (step_effect hb hstep).gateBelow hb
    (ih fun x hx => hread x (List.mem_append_left _ hx))
    (hread _ (List.mem_append_right _ (List.mem_singleton_self _)))

/-- With the earliest expiries below all expiries, a data sweep at `t` clears exactly the data
    that has expired. -/
theorem topicDataMAMonitor_ungated {b : Broker} (hb : Agreement b) (hgate : GateBelow b) (t : ℤ) :
    topicDataMAMonitor b (fun _ => t) = { b with
      topicDB := b.topicDB.map fun x =>
        if x.dataMa ≠ 0 ∧ x.dataMa < t then clearData x else x
      earliestDataMaxAge := (topicDataMAMonitor b fun _ => t).earliestDataMaxAge } := by
  rw [topicDataMAMonitor_eq hb.paths]
  split_ifs with hskip
  · -- nothing has expired, be the store empty or the gate closed
    have hmap : (b.topicDB.map fun x =>
        if x.dataMa ≠ 0 ∧ x.dataMa < t then clearData x else x) = b.topicDB := by
      refine (List.map_congr_left fun x hx => ?_).trans (List.map_id _)
      rcases hskip with hnil | hle
      · exact absurd (hnil ▸ hx) List.not_mem_nil
      · exact if_neg fun hexp => not_expired (hgate.data x hx) hle hexp.symm
    rw [hmap]
  · refine congrArg (fun db : TopicDB => { b with
      topicDB := db
      earliestDataMaxAge :=
        earliestAfter TopicData.dataMa b.earliestDataMaxAge longMax b.topicDB })
      (List.map_congr_left fun x hx => ?_)
    simp only [path_mem_expiredPaths_const hb.paths hx, Expired, and_comm]

/-- With the earliest expiries below all expiries, a topic sweep at `t` deletes exactly the
    topics that have expired, with their resources. -/
theorem topicMAMonitor_ungated {b : Broker} (hb : Agreement b) (hgate : GateBelow b) (t : ℤ) :
    (topicMAMonitor b fun _ => t).1 = { b with
      topicDB := b.topicDB.filter fun x => ¬(x.topicMa ≠ 0 ∧ x.topicMa < t)
      resources := b.resources.filter fun r =>
        ¬∃ x ∈ b.topicDB, x.path = r.uri ∧ x.topicMa ≠ 0 ∧ x.topicMa < t
      earliestTopicMaxAge := (topicMAMonitor b fun _ => t).1.earliestTopicMaxAge } := by
  rw [topicMAMonitor_eq hb.paths hb.uris fun u hu => hb.uri_mem hu]
  split_ifs with hskip
  · have hnone : ∀ x ∈ b.topicDB, ¬(x.topicMa ≠ 0 ∧ x.topicMa < t) := by
      intro x hx hexp
      rcases hskip with hnil | hle
      · exact absurd (hnil ▸ hx) List.not_mem_nil
      · exact not_expired (hgate.topic x hx) hle hexp.symm
    have hdb : (b.topicDB.filter fun x => ¬(x.topicMa ≠ 0 ∧ x.topicMa < t)) = b.topicDB :=
      List.filter_eq_self.2 fun x hx => decide_eq_true (hnone x hx)
    have hres : (b.resources.filter fun r =>
        ¬∃ x ∈ b.topicDB, x.path = r.uri ∧ x.topicMa ≠ 0 ∧ x.topicMa < t) = b.resources :=
      List.filter_eq_self.2 fun r _ => decide_eq_true fun ⟨x, hx, _, hexp⟩ => hnone x hx hexp
    rw [hdb, hres]
  · have hdb : (b.topicDB.filter fun x =>
        x.path ∉ expiredPaths TopicData.topicMa (fun _ => t) 0 b.topicDB) =
        b.topicDB.filter fun x => ¬(x.topicMa ≠ 0 ∧ x.topicMa < t) := by
      refine List.filter_congr fun x hx => ?_
      rw [decide_eq_decide, path_mem_expiredPaths_const hb.paths hx, Expired, and_comm]
    have hres : (b.resources.filter fun r =>
        r.uri ∉ expiredPaths TopicData.topicMa (fun _ => t) 0 b.topicDB) =
        b.resources.filter fun r =>
          ¬∃ x ∈ b.topicDB, x.path = r.uri ∧ x.topicMa ≠ 0 ∧ x.topicMa < t := by
      refine List.filter_congr fun r _ => ?_
      rw [decide_eq_decide, mem_expiredPaths_const]
      simp only [Expired, and_comm]
    dsimp only
    rw [hdb, hres]

/-- A sweep that reads the clock at `t` does what a sweep without the gate does: it clears
    exactly the data that has expired, or it deletes exactly the topics that have expired
    with their resources, and changes nothing else but its own earliest expiry. -/
theorem sweeps_ungated (mqttBridge rdServer : Bool) {tr : List (Transition Broker Event Output)}
    {b : Broker} (h : Run step (boot mqttBridge rdServer) tr b)
    (hread : ∀ x ∈ tr, x.ev.ReadsForward) (t : ℤ) :
    topicDataMAMonitor b (fun _ => t) = { b with
      topicDB := b.topicDB.map fun x =>
        if x.dataMa ≠ 0 ∧ x.dataMa < t then { x with data := none, dataMa := 0 } else x
      earliestDataMaxAge := (topicDataMAMonitor b fun _ => t).earliestDataMaxAge } ∧
    (topicMAMonitor b fun _ => t).1 = { b with
      topicDB := b.topicDB.filter fun x => ¬(x.topicMa ≠ 0 ∧ x.topicMa < t)
      resources := b.resources.filter fun r =>
        ¬∃ x ∈ b.topicDB, x.path = r.uri ∧ x.topicMa ≠ 0 ∧ x.topicMa < t
      earliestTopicMaxAge := (topicMAMonitor b fun _ => t).1.earliestTopicMaxAge } := by
  have hb : Agreement b := Reachable.agreement ⟨tr, h⟩
  have hgate := gateBelow_of_run h hread
  exact ⟨topicDataMAMonitor_ungated hb hgate t, topicMAMonitor_ungated hb hgate t⟩

/-- Data published at 2 for 5 seconds has expired at 8, its topic has not. -/
theorem sweeps_ungated_example :
    ∃ b, execRun step (boot false false) [.create "ps" "<a>;ct=0" (some 10) 1,
        .publish "ps/a" 0 "x" (some 5) 2, .topicSweep fun _ => 3] = .ok b ∧
      (topicDataMAMonitor b fun _ => 8).topicDB =
        [⟨CStr.lit "ps/a", none, 11, 0⟩] ∧
      (topicMAMonitor b fun _ => 8).1.topicDB = b.topicDB := by
  obtain ⟨b, hb, hdb⟩ : ∃ b, execRun step (boot false false) [.create "ps" "<a>;ct=0" (some 10) 1,
      .publish "ps/a" 0 "x" (some 5) 2, .topicSweep fun _ => 3] = .ok b ∧
      b.topicDB = [⟨CStr.lit "ps/a", some (CStr.lit "x"), 11, 7⟩] := ⟨_, rfl, by decide⟩
  obtain ⟨tr, hrun, hev⟩ := Run.of_execRun .nil hb
  have hread : ∀ x ∈ tr, x.ev.ReadsForward := by
    intro x hx
    have hmem : x.ev ∈ tr.map Transition.ev := List.mem_map_of_mem hx
    rw [hev] at hmem
    simp only [List.mem_cons, List.not_mem_nil, or_false] at hmem
    rcases hmem with h | h | h <;> rw [h]
    · trivial
    · trivial
    · exact fun _ => le_rfl
  have h := sweeps_ungated false false hrun hread 8
  refine ⟨b, hb, ?_, ?_⟩
  · rw [h.1, hdb]
    rfl
  · rw [h.2, hdb]
    rfl

end CoapBroker
