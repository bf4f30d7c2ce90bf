import CoapBroker.Broker.Delete

/-!
# Expiry sweeps

`topicDataMAMonitor` and `topicMAMonitor`, which the main loop calls after every message.
Each goes through the store only if the earliest expiry it knows of has passed; on the
way, it computes the next earliest expiry and deletes what has expired: the data of a
topic, or a topic together with its resource.

The clock is read once for the test (`time 0`) and once for every node (`time (i + 1)`).
What the sweeps come to, for any readings, is `topicDataMAMonitor_eq` and
`topicMAMonitor_eq`; the expired paths are those of the expired records when the readings
are all the same (`mem_expiredPaths_const`).
-/

namespace CoapBroker

/-! ## The sweeps -/

/-- A record whose expiry `ma` is neither `0` nor `t` or later has expired. -/
def Expired (ma t : ℤ) : Prop := ma < t ∧ ma ≠ 0

instance (ma t : ℤ) : Decidable (Expired ma t) := inferInstanceAs (Decidable (_ ∧ _))

/-- The next earliest expiry, after a record that expires at `ma`. -/
def nextEarliest (earliest next ma : ℤ) : ℤ :=
  if ma ≠ 0 ∧ ma ≠ earliest ∧ ma < next then ma else next

/-- The loop of `topicDataMAMonitor`, from the `i`-th node on. -/
def dataSweepLoop (earliest : ℤ) (time : ℕ → ℤ) :
    ℕ → List TopicData → TopicDB × ℤ → TopicDB × ℤ
  | _, [], s => s
  | i, currentPtr :: nextPtr, (topicDB, next) =>
    let next := nextEarliest earliest next currentPtr.dataMa
    let topicDB :=
      if Expired currentPtr.dataMa (time (i + 1)) then (topicDB.deleteTopicData currentPtr.path).1
      else topicDB
    dataSweepLoop earliest time (i + 1) nextPtr (topicDB, next)

/-- `topicDataMAMonitor`. -/
def topicDataMAMonitor (b : Broker) (time : ℕ → ℤ) : Broker :=
  if b.topicDB = [] then b
  else if b.earliestDataMaxAge < time 0 then
    let (topicDB, next) :=
      dataSweepLoop b.earliestDataMaxAge time 0 b.topicDB (b.topicDB, longMax)
    { b with topicDB, earliestDataMaxAge := next }
  else b

/-- Deleting the topic at `path` with the first resource of that URI. -/
def deleteExpired (mqttBridge : Bool) (path : CStr) (s : DeleteState) : DeleteState :=
  match Keyed.find CoapResource.uri s.resources path with
  | some r => s.deleteTopic mqttBridge r
  | none => s

/-- The loop of `topicMAMonitor`, from the `i`-th node on. -/
def topicSweepLoop (mqttBridge : Bool) (earliest : ℤ) (time : ℕ → ℤ) :
    ℕ → List TopicData → DeleteState × ℤ → DeleteState × ℤ
  | _, [], s => s
  | i, currentPtr :: nextPtr, (s, next) =>
    let next := nextEarliest earliest next currentPtr.topicMa
    let s :=
      if Expired currentPtr.topicMa (time (i + 1)) then deleteExpired mqttBridge currentPtr.path s
      else s
    topicSweepLoop mqttBridge earliest time (i + 1) nextPtr (s, next)

/-- `topicMAMonitor`. -/
def topicMAMonitor (b : Broker) (time : ℕ → ℤ) : Broker × Output :=
  if b.topicDB = [] then (b, {})
  else if b.earliestTopicMaxAge < time 0 then
    let (s, next) := topicSweepLoop b.mqttBridge b.earliestTopicMaxAge time 0 b.topicDB
      ({ topicDB := b.topicDB, resources := b.resources, counter := 0, mqtt := [] }, longMax)
    ({ b with topicDB := s.topicDB, resources := s.resources, earliestTopicMaxAge := next },
      { mqtt := s.mqtt })
  else (b, {})

/-! ## The next earliest expiry -/

/-- The next earliest expiry after a sweep over the records `ts`. -/
def earliestAfter (ma : TopicData → ℤ) (earliest next : ℤ) (ts : List TopicData) : ℤ :=
  ts.foldl (fun next t => nextEarliest earliest next (ma t)) next

theorem nextEarliest_le (earliest next ma : ℤ) : nextEarliest earliest next ma ≤ next := by
  rw [nextEarliest]
  split_ifs with h
  · exact h.2.2.le
  · exact le_rfl

theorem nextEarliest_le_of_ne {earliest next ma : ℤ} (h0 : ma ≠ 0) (he : ma ≠ earliest) :
    nextEarliest earliest next ma ≤ ma := by
  rw [nextEarliest]
  split_ifs with h
  · exact le_rfl
  · exact not_lt.1 fun hlt => h ⟨h0, he, hlt⟩

theorem earliestAfter_le (ma : TopicData → ℤ) (earliest next : ℤ) (ts : List TopicData) :
    earliestAfter ma earliest next ts ≤ next := by
  induction ts generalizing next with
  | nil => exact le_rfl
  | cons t ts ih => exact (ih _).trans (nextEarliest_le earliest next (ma t))

/-- The next earliest expiry is below every expiry but the earliest one so far. -/
theorem earliestAfter_le_of_mem {ma : TopicData → ℤ} {earliest next : ℤ} {ts : List TopicData}
    {t : TopicData} (ht : t ∈ ts) (h0 : ma t ≠ 0) (he : ma t ≠ earliest) :
    earliestAfter ma earliest next ts ≤ ma t := by
  induction ts generalizing next with
  | nil => exact absurd ht List.not_mem_nil
  | cons x ts ih =>
    rcases List.mem_cons.1 ht with rfl | ht
    · exact (earliestAfter_le ma earliest _ ts).trans (nextEarliest_le_of_ne h0 he)
    · exact ih ht

/-! ## The expired paths -/

/-- The paths of the records that have expired when the sweep reads the clock for them,
    from the `i`-th one on. -/
def expiredPaths (ma : TopicData → ℤ) (time : ℕ → ℤ) : ℕ → List TopicData → List CStr
  | _, [] => []
  | i, t :: ts =>
    if Expired (ma t) (time (i + 1)) then t.path :: expiredPaths ma time (i + 1) ts
    else expiredPaths ma time (i + 1) ts

theorem expiredPaths_sublist (ma : TopicData → ℤ) (time : ℕ → ℤ) (i : ℕ) (ts : List TopicData) :
    (expiredPaths ma time i ts).Sublist (ts.map TopicData.path) := by
  induction ts generalizing i with
  | nil => exact List.Sublist.refl _
  | cons t ts ih =>
    rw [expiredPaths, List.map_cons]
    split_ifs
    · exact (ih (i + 1)).cons_cons t.path
    · exact (ih (i + 1)).cons t.path

/-- A record whose path has not expired had not expired when the clock was read for it. -/
theorem exists_not_expired {ma : TopicData → ℤ} {time : ℕ → ℤ} {i : ℕ} {ts : List TopicData}
    {t : TopicData} (ht : t ∈ ts) (h : t.path ∉ expiredPaths ma time i ts) :
    ∃ j, ¬Expired (ma t) (time (j + 1)) := by
  induction ts generalizing i with
  | nil => exact absurd ht List.not_mem_nil
  | cons x ts ih =>
    rw [expiredPaths] at h
    rcases List.mem_cons.1 ht with rfl | ht
    · refine ⟨i, fun hexp => ?_⟩
      rw [if_pos hexp] at h
      exact h List.mem_cons_self
    · refine ih (i := i + 1) ht fun hmem => h ?_
      split_ifs
      · exact List.mem_cons_of_mem _ hmem
      · exact hmem

/-- A record whose path has expired had expired when the clock was read for it. -/
theorem exists_expired {ma : TopicData → ℤ} {time : ℕ → ℤ} {i : ℕ} {ts : List TopicData}
    (hts : Keyed.Distinct TopicData.path ts) {t : TopicData} (ht : t ∈ ts)
    (h : t.path ∈ expiredPaths ma time i ts) : ∃ j, Expired (ma t) (time (j + 1)) := by
  induction ts generalizing i with
  | nil => exact absurd ht List.not_mem_nil
  | cons x ts ih =>
    rw [Keyed.Distinct, List.map_cons, List.nodup_cons] at hts
    rw [expiredPaths] at h
    rcases List.mem_cons.1 ht with rfl | ht
    · split_ifs at h with hexp
      · exact ⟨i, hexp⟩
      · exact absurd ((expiredPaths_sublist ma time (i + 1) ts).subset h) hts.1
    · refine ih (i := i + 1) hts.2 ht ?_
      split_ifs at h
      · exact (List.mem_cons.1 h).resolve_left (Keyed.ne_of_notMem_keys hts.1 ht)
      · exact h

/-- The clock is read for the `j`-th of the records with the reading `i + j + 1`. -/
theorem mem_expiredPaths_iff {ma : TopicData → ℤ} {time : ℕ → ℤ} {i : ℕ} {ts : List TopicData}
    {u : CStr} :
    u ∈ expiredPaths ma time i ts ↔
      ∃ j t, ts[j]? = some t ∧ t.path = u ∧ Expired (ma t) (time (i + j + 1)) := by
  induction ts generalizing i with
  | nil => simp [expiredPaths]
  | cons x ts ih =>
    have hcons : (∃ j t, (x :: ts)[j]? = some t ∧ t.path = u ∧ Expired (ma t) (time (i + j + 1))) ↔
        (x.path = u ∧ Expired (ma x) (time (i + 1))) ∨ u ∈ expiredPaths ma time (i + 1) ts := by
      rw [ih]
      constructor
      · rintro ⟨j, t, ht, hpath, hexp⟩
        cases j with
        | zero =>
          cases ht
          exact .inl ⟨hpath, hexp⟩
        | succ j =>
          refine .inr ⟨j, t, ht, hpath, ?_⟩
          rwa [show i + 1 + j + 1 = i + (j + 1) + 1 by omega]
      · rintro (⟨hpath, hexp⟩ | ⟨j, t, ht, hpath, hexp⟩)
        · exact ⟨0, x, rfl, hpath, hexp⟩
        · refine ⟨j + 1, t, ht, hpath, ?_⟩
          rwa [show i + (j + 1) + 1 = i + 1 + j + 1 by omega]
    rw [hcons, expiredPaths]
    split_ifs with hexp
    · rw [List.mem_cons, eq_comm, and_iff_left hexp]
    · exact (or_iff_right fun h => hexp h.2).symm

/-- The expired paths do not depend on anything but the paths and the expiries. -/
theorem expiredPaths_map {ma : TopicData → ℤ} {f : TopicData → TopicData}
    (hpath : ∀ t, (f t).path = t.path) (hma : ∀ t, ma (f t) = ma t) (time : ℕ → ℤ) (i : ℕ)
    (ts : List TopicData) : expiredPaths ma time i (ts.map f) = expiredPaths ma time i ts := by
  induction ts generalizing i with
  | nil => rfl
  | cons t ts ih => rw [List.map_cons, expiredPaths, expiredPaths, hma, hpath, ih]

/-- With a single reading of the clock, the expired paths are those of the expired records. -/
theorem mem_expiredPaths_const {ma : TopicData → ℤ} {t : ℤ} {i : ℕ} {ts : List TopicData}
    {u : CStr} :
    u ∈ expiredPaths ma (fun _ => t) i ts ↔ ∃ x ∈ ts, x.path = u ∧ Expired (ma x) t := by
  induction ts generalizing i with
  | nil => simp [expiredPaths]
  | cons y ts ih =>
    rw [expiredPaths]
    split_ifs with h
    · simp [ih, h, eq_comm]
    · simp [ih, h]

theorem path_mem_expiredPaths_const {ma : TopicData → ℤ} {t : ℤ} {db : TopicDB}
    (hdb : Keyed.Distinct TopicData.path db) {x : TopicData} (hx : x ∈ db) :
    x.path ∈ expiredPaths ma (fun _ => t) 0 db ↔ Expired (ma x) t := by
  constructor
  · intro h
    obtain ⟨-, hexp⟩ := exists_expired hdb hx h
    exact hexp
  · exact fun h => mem_expiredPaths_const.2 ⟨x, hx, rfl, h⟩

/-! ## What the sweeps come to -/

/-- A record without data. -/
def clearData (t : TopicData) : TopicData := { t with data := none, dataMa := 0 }

theorem dataSweepLoop_eq (earliest : ℤ) (time : ℕ → ℤ) (i : ℕ) (ts : List TopicData) (db : TopicDB)
    (next : ℤ) (hdb : Keyed.Distinct TopicData.path db) :
    dataSweepLoop earliest time i ts (db, next) =
      (db.map fun t =>
        if t.path ∈ expiredPaths TopicData.dataMa time i ts then clearData t else t,
        earliestAfter TopicData.dataMa earliest next ts) := by
  induction ts generalizing i db next with
  | nil => simp [dataSweepLoop, expiredPaths, earliestAfter]
  | cons t ts ih =>
    rw [dataSweepLoop, expiredPaths]
    by_cases h : Expired t.dataMa (time (i + 1))
    -- paths are distinct, so that only this record is cleared
    · have hclear : (db.deleteTopicData t.path).1 =
          db.map fun x => if x.path = t.path then clearData x else x := by
        rw [TopicDB.deleteTopicData_fst]
        exact Keyed.modify_eq_map hdb
      have hdb' : Keyed.Distinct TopicData.path (db.deleteTopicData t.path).1 := by
        rw [TopicDB.deleteTopicData_fst]
        exact hdb.modify fun _ => rfl
      simp only [if_pos h]
      rw [ih _ _ _ hdb', hclear, List.map_map]
      refine Prod.ext (List.map_congr_left fun x _ => ?_) rfl
      rw [Function.comp_apply]
      by_cases hx : x.path = t.path
      · have hcons : x.path ∈ t.path :: expiredPaths TopicData.dataMa time (i + 1) ts :=
          hx ▸ List.mem_cons_self
        rw [if_pos hx, if_pos hcons]
        split_ifs <;> rfl
      · simp only [List.mem_cons, hx, false_or, if_false]
    · simp only [if_neg h]
      rw [ih _ _ _ hdb]
      rfl

/-- What the data sweep comes to. -/
theorem topicDataMAMonitor_eq {b : Broker} {time : ℕ → ℤ}
    (hdb : Keyed.Distinct TopicData.path b.topicDB) :
    topicDataMAMonitor b time =
      if b.topicDB = [] ∨ time 0 ≤ b.earliestDataMaxAge then b else { b with
        topicDB := b.topicDB.map fun t =>
          if t.path ∈ expiredPaths TopicData.dataMa time 0 b.topicDB then clearData t else t
        earliestDataMaxAge :=
          earliestAfter TopicData.dataMa b.earliestDataMaxAge longMax b.topicDB } := by
  rw [topicDataMAMonitor]
  by_cases hnil : b.topicDB = []
  · rw [if_pos hnil, if_pos (.inl hnil)]
  · by_cases hgate : b.earliestDataMaxAge < time 0
    · rw [if_neg hnil, if_pos hgate, if_neg (not_or.2 ⟨hnil, not_le.2 hgate⟩),
        dataSweepLoop_eq _ _ _ _ _ _ hdb]
    · rw [if_neg hnil, if_neg hgate, if_pos (.inr (not_lt.1 hgate))]

/-- Deleting a topic that has its resource. -/
theorem deleteExpired_eq (mqttBridge : Bool) {path : CStr} (s : DeleteState)
    (hdb : Keyed.Distinct TopicData.path s.topicDB)
    (hres : Keyed.Distinct CoapResource.uri s.resources) (hpath : path ∈ s.topicDB.paths)
    (huri : path ∈ s.resources.map CoapResource.uri) :
    deleteExpired mqttBridge path s = {
      topicDB := s.topicDB.filter fun x => x.path ≠ path
      resources := s.resources.filter fun x => x.uri ≠ path
      counter := s.counter + 1
      mqtt := s.mqtt ++ whenBridged mqttBridge (.unsubscribe path) } := by
  obtain ⟨r, hr⟩ := Option.isSome_iff_exists.1 (Keyed.find_isSome.2 huri)
  have hruri : r.uri = path := Keyed.key_of_find hr
  rw [deleteExpired, hr]
  dsimp only
  rw [DeleteState.deleteTopic_eq mqttBridge s hdb hres (Keyed.mem_of_find hr)
    (hruri ▸ hpath), hruri]

theorem topicSweepLoop_eq (mqttBridge : Bool) (earliest : ℤ) (time : ℕ → ℤ) (i : ℕ)
    (ts : List TopicData) (s : DeleteState) (next : ℤ)
    (hdb : Keyed.Distinct TopicData.path s.topicDB)
    (hres : Keyed.Distinct CoapResource.uri s.resources)
    (hts : (ts.map TopicData.path).Nodup)
    (hpaths : ∀ t ∈ ts, t.path ∈ s.topicDB.paths)
    (huris : ∀ t ∈ ts, t.path ∈ s.resources.map CoapResource.uri) :
    let us := expiredPaths TopicData.topicMa time i ts
    topicSweepLoop mqttBridge earliest time i ts (s, next) =
      ({ topicDB := s.topicDB.filter fun t => t.path ∉ us
         resources := s.resources.filter fun r => r.uri ∉ us
         counter := s.counter + us.length
         mqtt := s.mqtt ++ unsubscribeAll mqttBridge us },
        earliestAfter TopicData.topicMa earliest next ts) := by
  induction ts generalizing i s next with
  | nil => simp [topicSweepLoop, expiredPaths, earliestAfter, unsubscribeAll]
  | cons t ts ih =>
    rw [List.map_cons, List.nodup_cons] at hts
    have hpaths' : ∀ x ∈ ts, x.path ∈ s.topicDB.paths :=
      fun x hx => hpaths x (List.mem_cons_of_mem t hx)
    have huris' : ∀ x ∈ ts, x.path ∈ s.resources.map CoapResource.uri :=
      fun x hx => huris x (List.mem_cons_of_mem t hx)
    rw [topicSweepLoop, expiredPaths]
    by_cases h : Expired t.topicMa (time (i + 1))
    · have hdel := deleteExpired_eq mqttBridge s hdb hres (hpaths t List.mem_cons_self)
        (huris t List.mem_cons_self)
      -- the records ahead have other paths than `t`
      have hne : ∀ x ∈ ts, x.path ≠ t.path := fun x hx => Keyed.ne_of_notMem_keys hts.1 hx
      simp only [if_pos h, hdel]
      rw [ih _ _ _ (hdb.filter _) (hres.filter _) hts.2 ?_ ?_]
      · simp only [List.filter_filter, List.mem_cons, not_or, ne_eq, List.length_cons,
          unsubscribeAll, List.flatMap_cons, List.append_assoc, Bool.decide_and, Bool.and_comm,
          Nat.add_assoc, Nat.add_comm 1]
        rfl
      · intro x hx
        obtain ⟨y, hy, hyp⟩ := List.mem_map.1 (hpaths' x hx)
        exact List.mem_map.2 ⟨y, List.mem_filter.2 ⟨hy, decide_eq_true (hyp ▸ hne x hx)⟩, hyp⟩
      · intro x hx
        obtain ⟨y, hy, hyp⟩ := List.mem_map.1 (huris' x hx)
        exact List.mem_map.2 ⟨y, List.mem_filter.2 ⟨hy, decide_eq_true (hyp ▸ hne x hx)⟩, hyp⟩
    · simp only [if_neg h]
      rw [ih _ _ _ hdb hres hts.2 hpaths' huris']
      rfl

/-- What the topic sweep comes to, when every record has its resource. -/
theorem topicMAMonitor_eq {b : Broker} {time : ℕ → ℤ}
    (hdb : Keyed.Distinct TopicData.path b.topicDB)
    (hres : Keyed.Distinct CoapResource.uri b.resources)
    (huris : ∀ u ∈ b.topicDB.paths, u ∈ b.uris) :
    let us := expiredPaths TopicData.topicMa time 0 b.topicDB
    topicMAMonitor b time =
      if b.topicDB = [] ∨ time 0 ≤ b.earliestTopicMaxAge then (b, {}) else
        ({ b with
            topicDB := b.topicDB.filter fun t => t.path ∉ us
            resources := b.resources.filter fun r => r.uri ∉ us
            earliestTopicMaxAge :=
              earliestAfter TopicData.topicMa b.earliestTopicMaxAge longMax b.topicDB },
          { mqtt := unsubscribeAll b.mqttBridge us }) := by
  intro us
  rw [topicMAMonitor]
  by_cases hnil : b.topicDB = []
  · rw [if_pos hnil, if_pos (.inl hnil)]
  · by_cases hgate : b.earliestTopicMaxAge < time 0
    · rw [if_neg hnil, if_pos hgate, if_neg (not_or.2 ⟨hnil, not_le.2 hgate⟩),
        topicSweepLoop_eq b.mqttBridge _ _ _ _ ⟨b.topicDB, b.resources, 0, []⟩ _ hdb hres hdb
          (fun t ht => List.mem_map_of_mem ht) (fun t ht => huris _ (List.mem_map_of_mem ht))]
      rfl
    · rw [if_neg hnil, if_neg hgate, if_pos (.inr (not_lt.1 hgate))]

end CoapBroker
