import CoapBroker.Broker.Monitor
import CoapBroker.Cpp.Agreement

/-!
# The data sweep of the C++ broker

`topic_data_ma_monitor`, which goes through the store as the sweep of the C broker does
(`topicDataMAMonitor`) but deletes the nodes whose data has expired instead of their data. The
resources of these topics stay, so that the store and the table no longer agree.

The main loop does not call the sweep. Here it may come between any two events
(`monitoredStep`). What it should do is `SweepKeeps`, and a sweep does so exactly if no data
has expired (`sweeps_keep_topics_iff`).
-/

namespace CoapBroker.Cpp

/-! ## The sweep -/

/-- The loop of `topic_data_ma_monitor`, from the `i`-th node on. -/
def dataMaSweepLoop (earliest : ℤ) (time : ℕ → ℤ) :
    ℕ → List TopicData → TopicDB × ℤ → TopicDB × ℤ
  | _, [], s => s
  | i, currentPtr :: nextPtr, (topicDB, next) =>
    let next := nextEarliest earliest next currentPtr.dataMa
    let topicDB :=
      if Expired currentPtr.dataMa (time (i + 1)) then (topicDB.deleteTopic currentPtr.path).1
      else topicDB
    dataMaSweepLoop earliest time (i + 1) nextPtr (topicDB, next)

/-- `topic_data_ma_monitor`. -/
def topicDataMaMonitor (b : Broker) (time : ℕ → ℤ) : Broker :=
  if b.topicDB.nodes = [] then b
  else if b.earliestDataMaxAge < time 0 then
    let (topicDB, next) :=
      dataMaSweepLoop b.earliestDataMaxAge time 0 b.topicDB.nodes (b.topicDB, longMax)
    { b with topicDB, earliestDataMaxAge := next }
  else b

/-- An event, or a sweep at the time `t`. -/
inductive MonitoredEvent
  | event (e : Event)
  | dataSweep (t : ℤ)

/-- A step of the broker with the sweep. -/
def monitoredStep (b : Broker) : MonitoredEvent → Except Fault (Broker × Output)
  | .event e => step b e
  | .dataSweep t => .ok (topicDataMaMonitor b fun _ => t, {})

/-! ## What it should do -/

/-- A record without data. -/
def clearData (x : TopicData) : TopicData := { x with data := CStr.empty, dataMa := 0 }

/-- A sweep at the time `t` only clears the data that has expired, as the one of the C broker
    does with the same records: the store and the table agree afterwards, and no request to
    create a topic that comes later fails on a missing node. -/
structure SweepKeeps (b : Broker) (t : ℤ) : Prop where
  nodes : (topicDataMaMonitor b fun _ => t).topicDB.nodes =
    b.topicDB.nodes.map fun x => if x.dataMa ≠ 0 ∧ x.dataMa < t then clearData x else x
  resources : (topicDataMaMonitor b fun _ => t).resources = b.resources
  same : ∀ c : CoapBroker.Broker, c.topicDB.map TopicData.ofC = b.topicDB.nodes →
    c.earliestDataMaxAge = b.earliestDataMaxAge →
    (topicDataMAMonitor c fun _ => t).topicDB.map TopicData.ofC =
        (topicDataMaMonitor b fun _ => t).topicDB.nodes ∧
      (topicDataMAMonitor c fun _ => t).earliestDataMaxAge =
        (topicDataMaMonitor b fun _ => t).earliestDataMaxAge
  agreement : Agreement (topicDataMaMonitor b fun _ => t)
  later : ∀ b', Reachable step (topicDataMaMonitor b fun _ => t) b' → ∀ r ∈ b'.resources,
    ∀ request now, OnlyFails .uncaughtException (hndPostBroker b' r request now)

/-- No data has expired at the time `t`. -/
def NoneExpired (b : Broker) (t : ℤ) : Prop := ∀ x ∈ b.topicDB.nodes, ¬Expired x.dataMa t

/-! ## The gate -/

/-- The earliest expiry is below all expiries of data. -/
def GateBelow (b : Broker) : Prop :=
  ∀ x ∈ b.topicDB.nodes, x.dataMa ≠ 0 → b.earliestDataMaxAge ≤ x.dataMa

theorem Effect.gateBelow {b b' : Broker} {e : Event} {out : Output} (h : Effect b e b' out)
    (hb : Agreement b) (hgate : GateBelow b) : GateBelow b' := by
  cases h with
  | idle => exact hgate
  | observers uri f hf => exact hgate
  | refreshed htarget hparent hlf hmem =>
    intro x hx h0
    rcases Keyed.mem_modify hx with hx | ⟨y, hy, -, rfl⟩
    · exact hgate x hx h0
    · exact hgate y hy h0
  | created htarget hparent hlf hnot =>
    intro x hx h0
    rw [sHandler, TopicDB.addTopic_of_notMem (fun h => hnot (hb.table.uri_mem h))
      hlf.path_ne_empty] at hx
    rcases List.mem_append.1 hx with hx | hx
    · exact hgate x hx h0
    · -- a new topic has no data
      rw [List.mem_singleton.1 hx] at h0
      exact absurd rfl h0
  | @published uri req peer token now target observe ns htarget htopic =>
    intro x hx h0
    rcases Keyed.mem_modify hx with hx | ⟨y, hy, -, rfl⟩
    · exact (lowerEarliest_le _ _).trans (hgate x hx h0)
    · exact lowerEarliest_le_of_ne h0
  | deleted htarget htopic hnodes hexact =>
    intro x hx h0
    rw [hnodes] at hx
    exact hgate x (List.mem_filter.1 hx).1 h0

/-! ## Nothing has expired -/

variable {b : Broker} {t : ℤ}

/-- The next earliest expiry after a sweep over the records `ts`. -/
def earliestAfter (earliest next : ℤ) (ts : List TopicData) : ℤ :=
  ts.foldl (fun next x => nextEarliest earliest next x.dataMa) next

theorem earliestAfter_ofC (earliest next : ℤ) (ts : List CoapBroker.TopicData) :
    earliestAfter earliest next (ts.map TopicData.ofC) =
      CoapBroker.earliestAfter CoapBroker.TopicData.dataMa earliest next ts :=
  List.foldl_map

theorem dataMaSweepLoop_of_none {earliest : ℤ} {time : ℕ → ℤ} (i : ℕ) {ts : List TopicData}
    (db : TopicDB) (next : ℤ) (h : ∀ x ∈ ts, ∀ j, ¬Expired x.dataMa (time j)) :
    dataMaSweepLoop earliest time i ts (db, next) = (db, earliestAfter earliest next ts) := by
  induction ts generalizing i next with
  | nil => rfl
  | cons x ts ih =>
    rw [List.forall_mem_cons] at h
    rw [dataMaSweepLoop]
    simp only [if_neg (h.1 (i + 1))]
    rw [ih _ _ h.2]
    rfl

/-- The sweep only looks for the next earliest expiry. -/
theorem topicDataMaMonitor_of_none (h : NoneExpired b t) :
    topicDataMaMonitor b (fun _ => t) =
      if b.topicDB.nodes = [] ∨ t ≤ b.earliestDataMaxAge then b else
        { b with
          earliestDataMaxAge := earliestAfter b.earliestDataMaxAge longMax b.topicDB.nodes } := by
  rw [topicDataMaMonitor, dataMaSweepLoop_of_none 0 b.topicDB longMax fun x hx _ => h x hx]
  by_cases hnil : b.topicDB.nodes = []
  · rw [if_pos hnil, if_pos (.inl hnil)]
  · by_cases hgate : b.earliestDataMaxAge < t
    · rw [if_neg hnil, if_pos hgate, if_neg (not_or.2 ⟨hnil, not_le.2 hgate⟩)]
    · rw [if_neg hnil, if_neg hgate, if_pos (.inr (not_lt.1 hgate))]

/-- The sweep of the C broker does the same. -/
theorem topicDataMAMonitor_of_none {c : CoapBroker.Broker}
    (hnodes : c.topicDB.map TopicData.ofC = b.topicDB.nodes)
    (hdb : b.topicDB.paths.Nodup) (h : NoneExpired b t) :
    topicDataMAMonitor c (fun _ => t) =
      if c.topicDB = [] ∨ t ≤ c.earliestDataMaxAge then c else
        { c with
          earliestDataMaxAge := earliestAfter c.earliestDataMaxAge longMax b.topicDB.nodes } := by
  have hpaths : Keyed.Distinct CoapBroker.TopicData.path c.topicDB := by
    rw [TopicDB.paths, ← hnodes, List.map_map] at hdb
    exact hdb
  have hsame : (c.topicDB.map fun x =>
      if x.path ∈ expiredPaths CoapBroker.TopicData.dataMa (fun _ => t) 0 c.topicDB then
        CoapBroker.clearData x else x) = c.topicDB := by
    refine (List.map_congr_left fun x hx => ?_).trans (List.map_id _)
    refine if_neg fun hmem => ?_
    rw [path_mem_expiredPaths_const hpaths hx] at hmem
    exact h (TopicData.ofC x) (hnodes ▸ List.mem_map_of_mem hx) hmem
  rw [topicDataMAMonitor_eq hpaths, hsame, ← hnodes, earliestAfter_ofC]

/-- When no data has expired, the sweep does what it should. -/
theorem sweepKeeps_of_none (hb : Agreement b) (h : NoneExpired b t) : SweepKeeps b t := by
  have hagree : Agreement (topicDataMaMonitor b fun _ => t) := by
    rw [topicDataMaMonitor_of_none h]
    split_ifs
    · exact hb
    · exact ⟨hb.table, hb.exact⟩
  have hnodes : (topicDataMaMonitor b fun _ => t).topicDB.nodes = b.topicDB.nodes := by
    rw [topicDataMaMonitor_of_none h]
    split_ifs <;> rfl
  refine ⟨?_, ?_, fun c hc hearliest => ?_, hagree, fun b' hb' r _ request now => ?_⟩
  · rw [hnodes]
    refine ((List.map_congr_left fun x hx => ?_).trans (List.map_id _)).symm
    exact if_neg fun hexp => h x hx hexp.symm
  · rw [topicDataMaMonitor_of_none h]
    split_ifs <;> rfl
  · have hnil : c.topicDB = [] ↔ b.topicDB.nodes = [] := by
      rw [← hc, List.map_eq_nil_iff]
    rw [hnodes, topicDataMAMonitor_of_none hc hb.table.paths h, topicDataMaMonitor_of_none h,
      hearliest]
    by_cases hskip : b.topicDB.nodes = [] ∨ t ≤ b.earliestDataMaxAge
    · rw [if_pos hskip, if_pos (hskip.imp_left hnil.2)]
      exact ⟨hc, hearliest⟩
    · rw [if_neg hskip, if_neg (mt (Or.imp_left hnil.1) hskip)]
      exact ⟨hc, rfl⟩
  · exact hndPostBroker_onlyFails
      (hb'.invariant hagree fun _ _ _ _ hb hs => (step_effect hb hs).agreement hb) r request now

/-! ## Something has expired -/

/-- After a node has been deleted, there is none with its path. -/
theorem TopicDB.notMem_paths_deleteTopic {db : TopicDB} {path : CStr} (hexact : db.Exact)
    (hdb : db.paths.Nodup) : path ∉ (db.deleteTopic path).1.paths := by
  by_cases hmem : path ∈ db.paths
  · rw [TopicDB.deleteTopic_of_mem hmem (hexact.path_ne_empty hmem)]
    change path ∉ (Keyed.erase TopicData.path path db.nodes).map TopicData.path
    rw [Keyed.keys_erase]
    exact hdb.not_mem_erase
  · rw [TopicDB.deleteTopic_of_notMem hmem]
    exact hmem

theorem TopicDB.paths_deleteTopic_sublist (db : TopicDB) (path : CStr) :
    (db.deleteTopic path).1.paths.Sublist db.paths := by
  rw [TopicDB.deleteTopic]
  split_ifs
  · exact List.Sublist.refl _
  · exact Keyed.erase_sublist.map _
  · exact List.Sublist.refl _

/-- The loop only takes paths out, and those of expired nodes in any case. -/
theorem paths_dataMaSweepLoop {earliest : ℤ} {time : ℕ → ℤ} (i : ℕ) (ts : List TopicData)
    (db : TopicDB) (next : ℤ) (hexact : db.Exact) (hdb : db.paths.Nodup) :
    (dataMaSweepLoop earliest time i ts (db, next)).1.paths.Sublist db.paths ∧
      ∀ x ∈ ts, (∀ j, Expired x.dataMa (time j)) →
        x.path ∉ (dataMaSweepLoop earliest time i ts (db, next)).1.paths := by
  induction ts generalizing i db next with
  | nil => exact ⟨List.Sublist.refl _, fun x hx => absurd hx List.not_mem_nil⟩
  | cons y ts ih =>
    rw [dataMaSweepLoop]
    by_cases hexp : Expired y.dataMa (time (i + 1))
    · simp only [if_pos hexp]
      have hsub := TopicDB.paths_deleteTopic_sublist db y.path
      have hnot : y.path ∉ (db.deleteTopic y.path).1.paths :=
        TopicDB.notMem_paths_deleteTopic hexact hdb
      obtain ⟨hsub', hall⟩ := ih (i + 1) (db.deleteTopic y.path).1
        (nextEarliest earliest next y.dataMa) hexact.deleteTopic (hdb.sublist hsub)
      refine ⟨hsub'.trans hsub, List.forall_mem_cons.2 ⟨fun _ hmem => ?_, hall⟩⟩
      exact hnot (hsub'.subset hmem)
    · simp only [if_neg hexp]
      obtain ⟨hsub, hall⟩ := ih (i + 1) db (nextEarliest earliest next y.dataMa) hexact hdb
      exact ⟨hsub, List.forall_mem_cons.2 ⟨fun h => absurd (h (i + 1)) hexp, hall⟩⟩

/-- The sweep deletes a node whose data has expired. -/
theorem notMem_paths_topicDataMaMonitor (hb : Agreement b) (hgate : GateBelow b) {x : TopicData}
    (hx : x ∈ b.topicDB.nodes) (hexp : Expired x.dataMa t) :
    x.path ∉ (topicDataMaMonitor b fun _ => t).topicDB.paths := by
  have hnil : b.topicDB.nodes ≠ [] := List.ne_nil_of_mem hx
  have hopen : b.earliestDataMaxAge < t := (hgate x hx hexp.2).trans_lt hexp.1
  rw [topicDataMaMonitor, if_neg hnil, if_pos hopen]
  exact (paths_dataMaSweepLoop 0 _ _ _ hb.exact hb.table.paths).2 x hx fun _ => hexp

theorem sweepKeeps_iff (hb : Agreement b) (hgate : GateBelow b) :
    SweepKeeps b t ↔ NoneExpired b t := by
  refine ⟨fun h x hx hexp => ?_, sweepKeeps_of_none hb⟩
  refine notMem_paths_topicDataMaMonitor hb hgate hx hexp ?_
  rw [TopicDB.paths, h.nodes, List.map_map]
  refine List.mem_map.2 ⟨x, hx, ?_⟩
  rw [Function.comp_apply]
  split_ifs <;> rfl

/-! ## Every run -/

theorem GateBelow.topicDataMaMonitor (hgate : GateBelow b) (h : NoneExpired b t) :
    GateBelow (topicDataMaMonitor b fun _ => t) := by
  rw [topicDataMaMonitor_of_none h]
  split_ifs with hskip
  · exact hgate
  · intro x hx h0
    have hopen : b.earliestDataMaxAge < t := not_le.1 fun hle => hskip (.inr hle)
    have hle : t ≤ x.dataMa := not_lt.1 fun hlt => h x hx ⟨hlt, h0⟩
    have hne : x.dataMa ≠ b.earliestDataMaxAge := (hopen.trans_le hle).ne'
    have hearliest : earliestAfter b.earliestDataMaxAge longMax b.topicDB.nodes =
        CoapBroker.earliestAfter CoapBroker.TopicData.dataMa b.earliestDataMaxAge longMax
          (b.topicDB.nodes.map fun x => ⟨x.path, some x.data, x.topicMa, x.dataMa⟩) := by
      rw [CoapBroker.earliestAfter, List.foldl_map]
      rfl
    dsimp only
    rw [hearliest]
    exact earliestAfter_le_of_mem (List.mem_map_of_mem hx) h0 hne

/-- In every run of the broker with the sweep, every sweep does what it should exactly if no
    data has expired whenever it comes. -/
theorem sweeps_keep_topics_iff {b : Broker} {tr : List (Transition Broker MonitoredEvent Output)}
    (h : Run monitoredStep boot tr b) :
    (∀ x ∈ tr, ∀ t, x.ev = .dataSweep t → SweepKeeps x.src t) ↔
      ∀ x ∈ tr, ∀ t, x.ev = .dataSweep t → NoneExpired x.src t := by
  refine h.forall_step_iff (I := fun b => Agreement b ∧ GateBelow b)
    (P := fun b e => ∀ t, e = .dataSweep t → SweepKeeps b t)
    (C := fun b e => ∀ t, e = .dataSweep t → NoneExpired b t) ?_ ?_
  · exact ⟨agreement_boot, fun x hx => absurd hx List.not_mem_nil⟩
  · rintro b (e | t) out b' ⟨hb, hgate⟩ hs
    · have heffect : Effect b e b' out := step_effect hb hs
      exact ⟨iff_of_true (fun _ h => by cases h) (fun _ h => by cases h),
        fun _ => ⟨heffect.agreement hb, heffect.gateBelow hb hgate⟩⟩
    · cases hs
      simp only [MonitoredEvent.dataSweep.injEq, forall_eq']
      exact ⟨sweepKeeps_iff hb hgate, fun h =>
        ⟨(sweepKeeps_of_none hb h).agreement, hgate.topicDataMaMonitor h⟩⟩

/-- A sweep that comes before the data expires. -/
theorem sweeps_keep_topics_early :
    ∃ tr b, execTrace monitoredStep boot [.event (.create "ps" "<a>;ct=0" 1),
        .event (.publish "ps/a" 0 "x" (some 5) 2), .dataSweep 4] = .ok (tr, b) ∧
      ∀ x ∈ tr, ∀ t, x.ev = .dataSweep t → SweepKeeps x.src t := by
  obtain ⟨tr, b, hb, hnone⟩ : ∃ tr b, execTrace monitoredStep boot
      [.event (.create "ps" "<a>;ct=0" 1), .event (.publish "ps/a" 0 "x" (some 5) 2),
        .dataSweep 4] = .ok (tr, b) ∧
      ∀ x ∈ tr, ∀ n ∈ x.src.topicDB.nodes, ¬Expired n.dataMa 4 := ⟨_, _, rfl, by decide⟩
  obtain ⟨hrun, hev⟩ := Run.of_execTrace .nil hb
  refine ⟨tr, b, hb, (sweeps_keep_topics_iff hrun).2 fun x hx t ht => ?_⟩
  have hmem : x.ev ∈ tr.map Transition.ev := List.mem_map_of_mem hx
  rw [hev, ht] at hmem
  have ht4 : t = 4 := by simpa using hmem
  rw [ht4]
  exact hnone x hx

/-- A sweep that comes after the data has expired: the node is gone, the resource is not, and
    the next request to create the topic fails on the missing node. -/
theorem sweep_deletes_topic :
    ∃ b, execRun monitoredStep boot [.event (.create "ps" "<a>;ct=0" 1),
        .event (.publish "ps/a" 0 "x" (some 5) 2)] = .ok b ∧
      (topicDataMaMonitor b fun _ => 8).topicDB.nodes = [] ∧
      (topicDataMaMonitor b fun _ => 8).resources = b.resources ∧
      step (topicDataMaMonitor b fun _ => 8) (.create "ps" "<a>;ct=0" 9) = .error .nullDeref ∧
      ¬SweepKeeps b 8 := by
  obtain ⟨b, hb, hbefore, hnodes, hres, hstep⟩ : ∃ b, execRun monitoredStep boot
      [.event (.create "ps" "<a>;ct=0" 1), .event (.publish "ps/a" 0 "x" (some 5) 2)] = .ok b ∧
      b.topicDB.nodes = [⟨CStr.lit "ps/a", CStr.lit "x", 0, 7⟩] ∧
      (topicDataMaMonitor b fun _ => 8).topicDB.nodes = [] ∧
      (topicDataMaMonitor b fun _ => 8).resources = b.resources ∧
      step (topicDataMaMonitor b fun _ => 8) (.create "ps" "<a>;ct=0" 9) =
        .error .nullDeref := ⟨_, rfl, by decide, by decide, by decide, by decide +kernel⟩
  refine ⟨b, hb, hnodes, hres, hstep, fun h => ?_⟩
  have hkept := h.nodes
  rw [hnodes, hbefore] at hkept
  exact absurd hkept (by decide)

end CoapBroker.Cpp
