import CoapBroker.Store.Locks
import CoapBroker.System.Agreement

/-!
# Lock discipline

The sweeps of `CoapBroker.Broker.Monitor` on the nodes with their locks. A round reads a node
under both of its locks. The data sweep releases them before it deletes the data; the topic sweep
releases them when it comes to a resource with the path of the node, and not at all if there is
none. As in every reachable state each topic has its resource, it always comes to one
(`topicMAMonitor_runs`).

With the functions of the store, this makes the lock discipline on a single thread
(`lock_discipline`): no call fails on a lock, and all locks are free when it returns.
-/

namespace CoapBroker

open PtrList RwLock

namespace LockedNodes

/-! ## The sweeps -/

/-- A round begins: both locks of a node are taken, and the next node is read in between. -/
def lockBoth (a : ℕ) : LockProg Ptr := do
  rdlock a .node
  let current ← load a
  rdlock a .data
  pure current.nextPtr

def unlockBoth (a : ℕ) : LockProg Unit := do
  unlock a .data
  unlock a .node

/-- A round of `topicDataMAMonitor` ends: the locks are released before the data is deleted. -/
def expireData (a : ℕ) (current : TopicData) (t : ℤ) : LockProg Unit :=
  if Expired current.dataMa t then do
    unlockBoth a
    -- the path is read again, without a lock
    let current ← load a
    discard (deleteTopicData (some current.val.path))
  else unlockBoth a

/-- The loop of `topicDataMAMonitor`, from the `i`-th node on. -/
def dataSweepLoop (earliest : ℤ) (time : ℕ → ℤ) :
    ℕ → ℕ → Ptr → ℤ → LockProg ℤ
  | _, _, none, next => pure next
  | _, 0, some _, _ => cyclic
  | i, n + 1, some a, next => do
    let nextPtr ← lockBoth a
    let current ← load a
    expireData a current.val (time (i + 1))
    dataSweepLoop earliest time (i + 1) n nextPtr
      (nextEarliest earliest next current.val.dataMa)

/-- `topicDataMAMonitor`. -/
def topicDataMAMonitor (earliest : ℤ) (time : ℕ → ℤ) (currentPtr : Ptr) :
    LockProg ℤ := do
  if currentPtr = none then pure earliest
  else if earliest < time 0 then do
    let n ← size
    dataSweepLoop earliest time 0 n currentPtr longMax
  else pure earliest

/-- What a topic sweep changes next to the nodes. -/
structure Sweep where
  resources : ResourceTable
  mqtt : List MqttCall

/-- The loop of a round of `topicMAMonitor` over the resources: the locks of the node are
    released at a resource with its path. -/
def deleteExpired (mqttBridge : Bool) (a : ℕ) (deletedUriTopic : CStr) :
    List CoapResource → Sweep → LockProg Sweep
  | [], w => pure w
  | r :: rs, w =>
    if compareString (some r.uri) (some deletedUriTopic) then do
      unlockBoth a
      if ← deleteTopic (some r.uri) then
        pure {
          resources := w.resources.delete r
          mqtt := w.mqtt ++ whenBridged mqttBridge (.unsubscribe r.uri) }
      -- another resource with the path would release the locks once more
      else deleteExpired mqttBridge a deletedUriTopic rs w
    else deleteExpired mqttBridge a deletedUriTopic rs w

/-- A round of `topicMAMonitor` ends. -/
def expireTopic (mqttBridge : Bool) (a : ℕ) (current : TopicData) (t : ℤ) (w : Sweep) :
    LockProg Sweep :=
  if Expired current.topicMa t then
    deleteExpired mqttBridge a current.path w.resources w
  else do
    unlockBoth a
    pure w

/-- The loop of `topicMAMonitor`, from the `i`-th node on. -/
def topicSweepLoop (mqttBridge : Bool) (earliest : ℤ) (time : ℕ → ℤ) :
    ℕ → ℕ → Ptr → Sweep × ℤ → LockProg (Sweep × ℤ)
  | _, _, none, w => pure w
  | _, 0, some _, _ => cyclic
  | i, n + 1, some a, (w, next) => do
    let nextPtr ← lockBoth a
    let current ← load a
    let w ← expireTopic mqttBridge a current.val (time (i + 1)) w
    topicSweepLoop mqttBridge earliest time (i + 1) n nextPtr
      (w, nextEarliest earliest next current.val.topicMa)

/-- `topicMAMonitor`. -/
def topicMAMonitor (mqttBridge : Bool) (earliest : ℤ) (time : ℕ → ℤ) (w : Sweep)
    (currentPtr : Ptr) : LockProg (Sweep × ℤ) := do
  if currentPtr = none then pure (w, earliest)
  else if earliest < time 0 then do
    let n ← size
    topicSweepLoop mqttBridge earliest time 0 n currentPtr (w, longMax)
  else pure (w, earliest)

/-! ## Rounds -/

variable {s : LockedNodes} {a : ℕ} {c : Cell TopicData} {p : Ptr}
  {l₁ l₂ : List (ℕ × TopicData)}

/-- Both locks of a node are held for reading. -/
def holding (s : LockedNodes) (a : ℕ) : LockedNodes :=
  Locked.setLock (Locked.setLock s a .node (.read 0)) a .data (.read 0)

theorem locks_data (hs : s.Free) (ha : a ∈ s.heap) (x : Lock) :
    (Locked.setLock s a .node x).locks (a, .data) = .free := by
  rw [Locked.setLock_locks_of_kind_ne (by decide)]
  exact hs a ha .data

theorem runs_lockBoth (hs : s.Free) (hc : s.heap.lookup a = some c) :
    Runs (lockBoth a) s c.nextPtr (s.holding a) := by
  have ha : a ∈ s.heap := Finmap.mem_of_lookup_eq_some hc
  exact .bind (runs_rdlock ha (hs a ha .node)) (.bind (runs_load hc)
    (.bind (runs_rdlock ha (locks_data hs ha _)) runs_pure))

theorem runs_unlockBoth (hs : s.Free) (ha : a ∈ s.heap) :
    Runs (unlockBoth a) (s.holding a) () s :=
  .bind (runs_unlock rfl ha (locks_data hs ha _)) (runs_unlock rfl ha (hs a ha .node))

/-! ## The data sweep -/

/-- A round of the data sweep changes the data of its node at most. -/
theorem runs_expireData (hs : s.Free) (hc : s.heap.lookup a = some c)
    (hl : Segment s.heap s.head (l₁ ++ (a, c.val) :: l₂) none)
    (hdb : Keyed.Distinct TopicData.path ((l₁ ++ (a, c.val) :: l₂).map Prod.snd)) (t : ℤ) :
    ∃ s' : LockedNodes, Runs (expireData a c.val t) (s.holding a) () s' ∧ s'.Free ∧
      Segment s'.heap s'.head (l₁ ++
        (a, if Expired c.val.dataMa t then clearData c.val else c.val) :: l₂) none := by
  have ha : a ∈ s.heap := Finmap.mem_of_lookup_eq_some hc
  rw [expireData]
  by_cases h : Expired c.val.dataMa t
  · rw [if_pos h, if_pos h]
    obtain ⟨n, hdel, hn⟩ := Nodes.deleteTopicData_of_at (s := s.toNodes) (hl.firstAt hdb)
    obtain ⟨s', hrun, rfl, hs'⟩ := deleteTopicData_follows hs _ _ _ hdel
    exact ⟨s', .bind (runs_unlockBoth hs ha) (.bind (runs_load hc) hrun.discard), hs', hn⟩
  · rw [if_neg h, if_neg h]
    exact ⟨s, runs_unlockBoth hs ha, hs, hl⟩

/-- The round on the records. -/
theorem dataSweepLoop_append_cons {h : Heap TopicData} {x : TopicData} (earliest : ℤ)
    (time : ℕ → ℤ) (i : ℕ) (hat : FirstAt h p TopicData.path x.path l₁ a x l₂) (next : ℤ) :
    CoapBroker.dataSweepLoop earliest time i (((a, x) :: l₂).map Prod.snd)
        ((l₁ ++ (a, x) :: l₂).map Prod.snd, next) =
      CoapBroker.dataSweepLoop earliest time (i + 1) (l₂.map Prod.snd)
        ((l₁ ++ (a, if Expired x.dataMa (time (i + 1)) then clearData x else x) :: l₂).map Prod.snd,
          nextEarliest earliest next x.dataMa) := by
  rw [List.map_cons, CoapBroker.dataSweepLoop]
  split_ifs
  · rw [TopicDB.deleteTopicData_fst, List.map_append, List.map_cons,
      Keyed.modify_append_cons (notMem_keys hat.ne) rfl, ← clearData, List.map_append,
      List.map_cons]
  · rfl

/-- The loop does what the one on the records does, with all locks free at its end. -/
theorem runs_dataSweepLoop (earliest : ℤ) (time : ℕ → ℤ) (i : ℕ) {n : ℕ} (next : ℤ) (hs : s.Free)
    (l₁ : List (ℕ × TopicData)) (hl : Segment s.heap s.head (l₁ ++ l₂) none)
    (hp : Segment s.heap p l₂ none)
    (hdb : Keyed.Distinct TopicData.path ((l₁ ++ l₂).map Prod.snd)) (hn : l₂.length ≤ n) :
    let r := CoapBroker.dataSweepLoop earliest time i (l₂.map Prod.snd)
      ((l₁ ++ l₂).map Prod.snd, next)
    ∃ t : LockedNodes, Runs (dataSweepLoop earliest time i n p next) s r.2 t ∧
      t.toNodes.Represents r.1 ∧ t.Free := by
  -- `l₁` is behind the sweep; a round moves a node there, perhaps without its data
  induction l₂ generalizing s i n p next l₁ with
  | nil =>
    rw [segment_nil_iff.1 hp]
    refine ⟨s, ?_, ⟨_, hl, rfl⟩, hs⟩
    cases n <;> exact runs_pure
  | cons x l₂ ih =>
    obtain ⟨n, rfl⟩ : ∃ m, n = m + 1 := ⟨n - 1, by rw [List.length_cons] at hn; omega⟩
    obtain ⟨a, x⟩ := x
    obtain ⟨rfl, c, hc, rfl, hp'⟩ := segment_cons_iff.1 hp
    obtain ⟨s', hrun, hs', hl'⟩ := runs_expireData hs hc hl hdb (time (i + 1))
    have hround := dataSweepLoop_append_cons earliest time i (hl.firstAt hdb) next
    generalize hy : (if Expired c.val.dataMa (time (i + 1)) then clearData c.val else c.val) = y
      at hl' hround
    have hpath : y.path = c.val.path := by
      rw [← hy]
      split_ifs <;> rfl
    have hdb' : Keyed.Distinct TopicData.path ((l₁ ++ (a, y) :: l₂).map Prod.snd) := by
      rw [Keyed.Distinct, List.map_append, List.map_cons] at hdb ⊢
      rwa [List.map_append, List.map_cons, hpath, ← List.map_cons, ← List.map_append]
    rw [List.append_cons] at hl' hdb'
    obtain ⟨t, hloop, ht⟩ := ih (i + 1) _ hs' _ hl' (hl'.end_of_append hp' rfl) hdb'
      (by simpa using hn)
    rw [hround, List.append_cons]
    exact ⟨t, .bind (runs_lockBoth hs hc) (.bind (runs_load hc) (.bind hrun hloop)), ht⟩

/-! ## The topic sweep -/

/-- What the sweep has changed next to the records. -/
def Sweep.of (d : DeleteState) : Sweep where
  resources := d.resources
  mqtt := d.mqtt

/-- The loop over the resources stops at the one with the path, where it releases the locks and
    deletes the topic. -/
theorem runs_deleteExpired (mqttBridge : Bool) {path : CStr} {rs : List CoapResource}
    {r : CoapResource} {w : Sweep} {t : LockedNodes} (hs : s.Free) (ha : a ∈ s.heap)
    (hr : Keyed.find CoapResource.uri rs path = some r)
    (hdel : Runs (deleteTopic (some path)) s true t) :
    Runs (deleteExpired mqttBridge a path rs w) (s.holding a)
      { resources := w.resources.delete r
        mqtt := w.mqtt ++ whenBridged mqttBridge (.unsubscribe path) } t := by
  induction rs with
  | nil => cases hr
  | cons x rs ih =>
    rw [Keyed.find_cons] at hr
    rw [deleteExpired]
    by_cases hx : x.uri = path
    · rw [if_pos hx] at hr
      cases hr
      rw [if_pos (compareString_some.2 hx), hx]
      exact .bind (runs_unlockBoth hs ha) (.bind hdel runs_pure)
    · rw [if_neg hx] at hr
      rw [if_neg fun h => hx (compareString_some.1 h)]
      exact ih hr

/-- A round of the topic sweep does what it does on the records, and releases its locks. -/
theorem runs_expireTopic (mqttBridge : Bool) {d : DeleteState} (hs : s.Free)
    (hc : s.heap.lookup a = some c)
    (hl : Segment s.heap s.head (l₁ ++ (a, c.val) :: l₂) none)
    (hd : d.topicDB = (l₁ ++ (a, c.val) :: l₂).map Prod.snd)
    (hdb : Keyed.Distinct TopicData.path d.topicDB)
    (hres : Keyed.Distinct CoapResource.uri d.resources)
    (huri : c.val.path ∈ d.resources.map CoapResource.uri) (t : ℤ) :
    let d' := if Expired c.val.topicMa t then
        CoapBroker.deleteExpired mqttBridge c.val.path d else d
    ∃ (s' : LockedNodes) (l : List (ℕ × TopicData)),
      Runs (expireTopic mqttBridge a c.val t (.of d)) (s.holding a) (.of d') s' ∧ s'.Free ∧
        Segment s'.heap s'.head (l ++ l₂) none ∧ d'.topicDB = (l ++ l₂).map Prod.snd := by
  have ha : a ∈ s.heap := Finmap.mem_of_lookup_eq_some hc
  have hat := hl.firstAt (hd ▸ hdb)
  rw [expireTopic]
  by_cases h : Expired c.val.topicMa t
  · have hpath : c.val.path ∈ d.topicDB.paths := by
      rw [hd, List.map_append, List.map_cons]
      exact List.mem_map_of_mem (List.mem_append_right _ List.mem_cons_self)
    -- the resource is there, and the record with its path is the node itself
    obtain ⟨r, hr⟩ := Option.isSome_iff_exists.1 (Keyed.find_isSome.2 huri)
    obtain ⟨n, hdel, hn⟩ := Nodes.deleteTopic_of_at (s := s.toNodes) hat
    obtain ⟨s', hrun, rfl, hs'⟩ := deleteTopic_follows hs _ _ _ hdel
    simp only [if_pos h]
    rw [deleteExpired_eq mqttBridge d hdb hres hpath huri]
    refine ⟨s', l₁, ?_, hs', hn, ?_⟩
    · have hloop := runs_deleteExpired mqttBridge (w := .of d) hs ha hr hrun
      rwa [Sweep.of, ResourceTable.delete,
        Keyed.list_erase_eq_filter hres (Keyed.mem_of_find hr), Keyed.key_of_find hr] at hloop
    · dsimp only
      rw [← Keyed.erase_eq_filter hdb, hd, List.map_append, List.map_cons,
        Keyed.erase_append_cons (notMem_keys hat.ne) rfl, List.map_append]
  · simp only [if_neg h]
    exact ⟨s, l₁ ++ [(a, c.val)], .bind (runs_unlockBoth hs ha) runs_pure, hs,
      List.append_cons .. ▸ hl, List.append_cons .. ▸ hd⟩

/-- A round keeps the paths and the URIs distinct, and every other URI. -/
theorem deleteExpired_keeps (mqttBridge : Bool) {path : CStr} {d : DeleteState}
    (hdb : Keyed.Distinct TopicData.path d.topicDB)
    (hres : Keyed.Distinct CoapResource.uri d.resources) (hpath : path ∈ d.topicDB.paths)
    (huri : path ∈ d.resources.map CoapResource.uri) :
    let d' := CoapBroker.deleteExpired mqttBridge path d
    Keyed.Distinct TopicData.path d'.topicDB ∧ Keyed.Distinct CoapResource.uri d'.resources ∧
      ∀ u ∈ d.resources.map CoapResource.uri, u ≠ path → u ∈ d'.resources.map CoapResource.uri := by
  rw [deleteExpired_eq mqttBridge d hdb hres hpath huri]
  refine ⟨hdb.filter _, hres.filter _, fun u hu hne => ?_⟩
  obtain ⟨r, hr, rfl⟩ := List.mem_map.1 hu
  exact List.mem_map_of_mem (List.mem_filter.2 ⟨hr, decide_eq_true hne⟩)

/-- The loop does what the one on the records does, with all locks free at its end, as long as
    the topics ahead have their resources. -/
theorem runs_topicSweepLoop (mqttBridge : Bool) (earliest : ℤ) (time : ℕ → ℤ) (i : ℕ) {n : ℕ}
    {d : DeleteState} (next : ℤ) (hs : s.Free) (l₁ : List (ℕ × TopicData))
    (hl : Segment s.heap s.head (l₁ ++ l₂) none) (hp : Segment s.heap p l₂ none)
    (hd : d.topicDB = (l₁ ++ l₂).map Prod.snd)
    (hdb : Keyed.Distinct TopicData.path d.topicDB)
    (hres : Keyed.Distinct CoapResource.uri d.resources)
    (huris : ∀ x ∈ l₂, x.2.path ∈ d.resources.map CoapResource.uri) (hn : l₂.length ≤ n) :
    let r := CoapBroker.topicSweepLoop mqttBridge earliest time i (l₂.map Prod.snd) (d, next)
    ∃ t : LockedNodes,
      Runs (topicSweepLoop mqttBridge earliest time i n p (.of d, next)) s (.of r.1, r.2) t ∧
        t.toNodes.Represents r.1.topicDB ∧ t.Free := by
  -- `l₁` is behind the sweep; a round moves a node there or takes it out
  induction l₂ generalizing s i n p d next l₁ with
  | nil =>
    rw [segment_nil_iff.1 hp]
    refine ⟨s, ?_, ⟨_, hl, hd.symm⟩, hs⟩
    cases n <;> exact runs_pure
  | cons x l₂ ih =>
    obtain ⟨n, rfl⟩ : ∃ m, n = m + 1 := ⟨n - 1, by rw [List.length_cons] at hn; omega⟩
    obtain ⟨a, x⟩ := x
    obtain ⟨rfl, c, hc, rfl, hp'⟩ := segment_cons_iff.1 hp
    rw [List.forall_mem_cons] at huris
    obtain ⟨s', l, hrun, hs', hl', hd'⟩ :=
      runs_expireTopic mqttBridge hs hc hl hd hdb hres huris.1 (time (i + 1))
    have hpath : c.val.path ∈ d.topicDB.paths := by
      rw [hd, List.map_append, List.map_cons]
      exact List.mem_map_of_mem (List.mem_append_right _ List.mem_cons_self)
    -- the topics ahead keep their resources, as they have other paths
    have hne : ∀ x ∈ l₂, x.2.path ≠ c.val.path := by
      rw [hd, Keyed.Distinct, List.map_map, List.map_append, List.nodup_append, List.map_cons,
        List.nodup_cons] at hdb
      exact fun x hx heq => hdb.2.1.1 (List.mem_map.2 ⟨x, hx, heq⟩)
    rw [List.map_cons, CoapBroker.topicSweepLoop]
    generalize hround : (if Expired c.val.topicMa (time (i + 1)) then
      CoapBroker.deleteExpired mqttBridge c.val.path d else d) = d' at hrun hd'
    have hkeep : Keyed.Distinct TopicData.path d'.topicDB ∧
        Keyed.Distinct CoapResource.uri d'.resources ∧
        ∀ x ∈ l₂, x.2.path ∈ d'.resources.map CoapResource.uri := by
      rw [← hround]
      split_ifs
      · obtain ⟨hdb', hres', hmem⟩ := deleteExpired_keeps mqttBridge hdb hres hpath huris.1
        exact ⟨hdb', hres', fun x hx => hmem _ (huris.2 x hx) (hne x hx)⟩
      · exact ⟨hdb, hres, huris.2⟩
    obtain ⟨hdb', hres', huris'⟩ := hkeep
    obtain ⟨t, hloop, ht⟩ := ih (i + 1) _ hs' _ hl' (hl'.end_of_append hp' rfl) hd' hdb' hres'
      huris' (by simpa using hn)
    exact ⟨t, .bind (runs_lockBoth hs hc) (.bind (runs_load hc) (.bind hrun hloop)), ht⟩

/-! ## The monitors -/

theorem head_eq_none_iff {db : TopicDB} (h : s.toNodes.Represents db) :
    s.head = none ↔ db = [] := by
  obtain ⟨l, hl, rfl⟩ := h
  rw [show s.head = _ from hl.ptr_eq]
  cases l <;> simp

/-- The data sweep on the nodes. -/
theorem topicDataMAMonitor_runs {b : Broker} (hs : s.Free) (h : s.toNodes.Represents b.topicDB)
    (hdb : Keyed.Distinct TopicData.path b.topicDB) (time : ℕ → ℤ) :
    let b' := CoapBroker.topicDataMAMonitor b time
    ∃ t : LockedNodes,
      Runs (topicDataMAMonitor b.earliestDataMaxAge time s.head) s b'.earliestDataMaxAge t ∧
        t.toNodes.Represents b'.topicDB ∧ t.Free := by
  rw [topicDataMAMonitor, CoapBroker.topicDataMAMonitor]
  by_cases hnil : b.topicDB = []
  · rw [if_pos hnil, if_pos ((head_eq_none_iff h).2 hnil)]
    exact ⟨s, runs_pure, h, hs⟩
  rw [if_neg hnil, if_neg fun hp => hnil ((head_eq_none_iff h).1 hp)]
  by_cases hgate : b.earliestDataMaxAge < time 0
  · rw [if_pos hgate, if_pos hgate]
    obtain ⟨l, hl, hdbl⟩ := h
    obtain ⟨t, hrun, ht⟩ := runs_dataSweepLoop b.earliestDataMaxAge time 0 longMax hs [] hl hl
      (hdbl ▸ hdb) hl.length_le
    rw [List.nil_append, hdbl] at hrun ht
    exact ⟨t, .bind runs_size hrun, ht⟩
  · rw [if_neg hgate, if_neg hgate]
    exact ⟨s, runs_pure, h, hs⟩

/-- The topic sweep on the nodes, when every topic has its resource. -/
theorem topicMAMonitor_runs {b : Broker} (hs : s.Free) (h : s.toNodes.Represents b.topicDB)
    (hb : Agreement b) (time : ℕ → ℤ) :
    let b' := (CoapBroker.topicMAMonitor b time).1
    let mqtt := (CoapBroker.topicMAMonitor b time).2.mqtt
    ∃ t : LockedNodes,
      Runs (topicMAMonitor b.mqttBridge b.earliestTopicMaxAge time ⟨b.resources, []⟩ s.head) s
          (⟨b'.resources, mqtt⟩, b'.earliestTopicMaxAge) t ∧
        t.toNodes.Represents b'.topicDB ∧ t.Free := by
  rw [topicMAMonitor, CoapBroker.topicMAMonitor]
  by_cases hnil : b.topicDB = []
  · rw [if_pos hnil, if_pos ((head_eq_none_iff h).2 hnil)]
    exact ⟨s, runs_pure, h, hs⟩
  rw [if_neg hnil, if_neg fun hp => hnil ((head_eq_none_iff h).1 hp)]
  by_cases hgate : b.earliestTopicMaxAge < time 0
  · rw [if_pos hgate, if_pos hgate]
    obtain ⟨l, hl, hdbl⟩ := h
    have huris : ∀ x ∈ l, x.2.path ∈ b.resources.map CoapResource.uri := fun x hx =>
      hb.uri_mem (List.mem_map_of_mem (hdbl ▸ List.mem_map_of_mem hx))
    obtain ⟨t, hrun, ht⟩ := runs_topicSweepLoop (d := ⟨b.topicDB, b.resources, 0, []⟩)
      b.mqttBridge b.earliestTopicMaxAge time 0 longMax hs [] hl hl hdbl.symm hb.paths hb.uris huris
      hl.length_le
    rw [hdbl] at hrun ht
    exact ⟨t, .bind runs_size hrun, ht⟩
  · rw [if_neg hgate, if_neg hgate]
    exact ⟨s, runs_pure, h, hs⟩

/-! ## Calls -/

/-- The calls. The sweeps go from the first node on, as the main loop calls them, with what the
    broker knows. -/
inductive LockCall
  | getTopic (path : Option CStr)
  | cloneTopic (path : Option CStr)
  | setTopic (path : Option CStr) (data : Option (List Byte)) (dataSize : ℕ) (topicMa dataMa : ℤ)
  | addTopicWEC (path : Option CStr) (pathSize : ℕ) (topicMa : ℤ)
  | updateTopicInfo (path : Option CStr) (topicMa : ℤ)
  | updateTopicData (path : Option CStr) (dataMa : ℤ) (data : Option (List Byte)) (dataSize : ℕ)
  | deleteTopic (path : Option CStr)
  | deleteTopicData (path : Option CStr)
  | cleanDB
  | topicDataMAMonitor (time : ℕ → ℤ)
  | topicMAMonitor (time : ℕ → ℤ)

/-- A call, without its result. -/
def lockCall (m : Malloc) (b : Broker) : LockCall → LockProg Unit
  | .getTopic path => discard (getTopic path)
  | .cloneTopic path => discard (cloneTopic m path)
  | .setTopic path data dataSize topicMa dataMa =>
    discard (setTopic path data dataSize topicMa dataMa)
  | .addTopicWEC path pathSize topicMa => discard (addTopicWEC m path pathSize topicMa)
  | .updateTopicInfo path topicMa => discard (updateTopicInfo path topicMa)
  | .updateTopicData path dataMa data dataSize =>
    discard (updateTopicData path dataMa data dataSize)
  | .deleteTopic path => discard (deleteTopic path)
  | .deleteTopicData path => discard (deleteTopicData path)
  | .cleanDB => cleanDB
  | .topicDataMAMonitor time => do
    let p ← head
    discard (topicDataMAMonitor b.earliestDataMaxAge time p)
  | .topicMAMonitor time => do
    let p ← head
    discard (topicMAMonitor b.mqttBridge b.earliestTopicMaxAge time ⟨b.resources, []⟩ p)

/-- A function that follows one on the nodes returns, if that one returns for `NULL` and agrees
    with the records for every other path. -/
theorem Follows.returns {f : Option CStr → LockProg Bool}
    {g : Option CStr → Except HeapFault (Nodes × Bool)} {r : CStr → TopicDB × Bool}
    (hf : ∀ path, Follows (f path) s (g path)) (hnull : g none = .ok (s.toNodes, false))
    (hg : ∀ path, Nodes.Agrees (g (some path)) (r path)) (path : Option CStr) :
    ∃ t : LockedNodes, Runs (discard (f path)) s () t ∧ t.Free := by
  rcases path with _ | path
  · obtain ⟨t, hrun, -, ht⟩ := hf none _ _ hnull
    exact ⟨t, hrun.discard, ht⟩
  · obtain ⟨t, hrun, -, ht⟩ := (hf (some path)).of_agrees (hg path)
    exact ⟨t, hrun.discard, ht⟩

/-- Every store has nodes with free locks. -/
theorem exists_free (db : TopicDB) : ∃ s : LockedNodes, s.toNodes.Represents db ∧ s.Free := by
  induction db with
  | nil => exact ⟨⟨∅, none, fun _ => .free⟩, ⟨[], .nil, rfl⟩, fun _ _ _ => rfl⟩
  | cons t db ih =>
    obtain ⟨s, ⟨l, hl, rfl⟩, hs⟩ := ih
    have hfresh : Malloc.above.ptr s.heap.keys ∉ l.map Prod.fst := fun hm =>
      Malloc.above.fresh _ (hl.mem_keys _ hm)
    exact ⟨(s.addCell _ ⟨t, s.head⟩ fun _ => .free).setHead (some _),
      ⟨_, .cons (Finmap.lookup_insert _) (hl.insert_of_notMem hfresh _), rfl⟩, hs.addCell _ _⟩

end LockedNodes

/-- Lock discipline: in every reachable state, no call fails on a lock, and it leaves all locks
    free. -/
theorem lock_discipline {mqttBridge rdServer : Bool} {b : Broker}
    (h : Reachable step (boot mqttBridge rdServer) b) (m : Malloc) {s : LockedNodes}
    (hs : s.toNodes.Represents b.topicDB) (hfree : s.Free) (c : LockedNodes.LockCall) :
    ∃ t : LockedNodes, Runs (LockedNodes.lockCall m b c) s () t ∧ t.Free := by
  -- a call follows its lock-free counterpart, which returns since the nodes stand for a store
  cases c with
  | getTopic path =>
    obtain ⟨p, hp⟩ := Nodes.exists_getTopic hs path
    exact ⟨s, (LockedNodes.runs_getTopic hfree hp).discard, hfree⟩
  | cloneTopic path =>
    obtain ⟨n, p, hres⟩ := Nodes.exists_cloneTopic m hs path
    obtain ⟨t, hrun, -, ht⟩ := LockedNodes.cloneTopic_follows hfree m path n p hres
    exact ⟨t, hrun.discard, ht⟩
  | setTopic path data dataSize topicMa dataMa =>
    refine LockedNodes.Follows.returns
      (fun path => LockedNodes.setTopic_follows hfree path data dataSize topicMa dataMa) ?_
      (fun path => Nodes.setTopic_agrees hs path data dataSize topicMa dataMa) path
    rw [Nodes.setTopic, Nodes.getTopic_null]
    rfl
  | addTopicWEC path pathSize topicMa =>
    refine LockedNodes.Follows.returns
      (fun path => LockedNodes.addTopicWEC_follows hfree m path pathSize topicMa) ?_
      (fun path => Nodes.addTopicWEC_agrees m hs path pathSize topicMa) path
    rw [Nodes.addTopicWEC, Nodes.getTopic_null]
    rfl
  | updateTopicInfo path topicMa =>
    refine LockedNodes.Follows.returns
      (fun path => LockedNodes.updateTopicInfo_follows hfree path topicMa) ?_
      (fun path => Nodes.updateTopicInfo_agrees hs path topicMa) path
    rw [Nodes.updateTopicInfo, Nodes.getTopic_null]
    rfl
  | updateTopicData path dataMa data dataSize =>
    refine LockedNodes.Follows.returns
      (fun path => LockedNodes.updateTopicData_follows hfree path dataMa data dataSize) ?_
      (fun path => Nodes.updateTopicData_agrees hs path dataMa data dataSize) path
    rw [Nodes.updateTopicData, Nodes.getTopic_null]
    rfl
  | deleteTopic path =>
    exact LockedNodes.Follows.returns (LockedNodes.deleteTopic_follows hfree)
      (Nodes.deleteTopic_null s.toNodes) (Nodes.deleteTopic_agrees hs) path
  | deleteTopicData path =>
    refine LockedNodes.Follows.returns (LockedNodes.deleteTopicData_follows hfree) ?_
      (Nodes.deleteTopicData_agrees hs) path
    rw [Nodes.deleteTopicData, Nodes.getTopic_null]
    rfl
  | cleanDB =>
    obtain ⟨t, hrun, -, ht⟩ := LockedNodes.runs_cleanDB hfree hs
    exact ⟨t, hrun, ht⟩
  | topicDataMAMonitor time =>
    obtain ⟨t, hrun, -, ht⟩ := LockedNodes.topicDataMAMonitor_runs hfree hs h.agreement.paths time
    exact ⟨t, .bind runs_head hrun.discard, ht⟩
  | topicMAMonitor time =>
    obtain ⟨t, hrun, -, ht⟩ := LockedNodes.topicMAMonitor_runs hfree hs h.agreement time
    exact ⟨t, .bind runs_head hrun.discard, ht⟩

/-- The sweep that deletes a topic with `Max-Age` 5, six seconds later. -/
theorem lock_discipline_expired :
    ∃ (b : Broker) (s t : LockedNodes),
      execRun step (boot true false) [.create "ps" "<a>;ct=0" (some 5) 1] = .ok b ∧
      b.topicDB.paths = [CStr.lit "ps/a"] ∧ (topicMAMonitor b fun _ => 7).1.topicDB = [] ∧
      s.toNodes.Represents b.topicDB ∧ s.Free ∧
      Runs (LockedNodes.lockCall .above b (.topicMAMonitor fun _ => 7)) s () t ∧ t.Free := by
  obtain ⟨b, hb, hpaths, hsweep⟩ : ∃ b,
      execRun step (boot true false) [.create "ps" "<a>;ct=0" (some 5) 1] = .ok b ∧
      b.topicDB.paths = [CStr.lit "ps/a"] ∧ (topicMAMonitor b fun _ => 7).1.topicDB = [] :=
    ⟨_, rfl, by decide, by decide⟩
  obtain ⟨s, hs, hfree⟩ := LockedNodes.exists_free b.topicDB
  obtain ⟨t, hrun, ht⟩ := lock_discipline (Reachable.init.of_execRun hb) .above hs hfree
    (.topicMAMonitor fun _ => 7)
  exact ⟨b, s, t, hb, hpaths, hsweep, hs, hfree, hrun, ht⟩

end CoapBroker
