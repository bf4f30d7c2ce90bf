import CoapBroker.Cpp.Nodes
import CoapBroker.Store.Refinement

/-!
# The stores of the two brokers are bisimilar

The nodes of the C broker and those of the C++ broker, under operations that correspond
(`Op`). Both stores hold the records of one list (`Bisimilar`), absent data being the empty
string, and every operation keeps it so, with the same result. Hence they stay in step over
every sequence of operations from the empty stores (`stores_bisimilar`).

On the list of the records, this is that the operations commute with `TopicDB.ofC`.
-/

namespace CoapBroker.Cpp

open PtrList

/-! ## Lists of records -/

namespace TopicDB

/-- The store of the C broker, with an exact counter. -/
def ofC (db : CoapBroker.TopicDB) : TopicDB := ⟨db.map TopicData.ofC, db.length⟩

variable {db : CoapBroker.TopicDB} {path : CStr}

theorem exact_ofC (hdb : ∀ t ∈ db, t.path ≠ CStr.empty) : (ofC db).Exact where
  length := by
    rw [ofC, List.length_map]
  path_ne t ht := by
    obtain ⟨x, hx, rfl⟩ := List.mem_map.1 ht
    exact hdb x hx

theorem paths_ofC : (ofC db).paths = db.paths := List.map_map

theorem find_ofC :
    Keyed.find TopicData.path (ofC db).nodes path = (db.getTopic path).map TopicData.ofC :=
  Keyed.find_map fun _ => rfl

/-- Changing the records of a path, on either side. -/
theorem modify_ofC {f : CoapBroker.TopicData → CoapBroker.TopicData} {g : TopicData → TopicData}
    (h : ∀ t, g (TopicData.ofC t) = TopicData.ofC (f t)) :
    (ofC db).modify path g = ofC (Keyed.modify CoapBroker.TopicData.path path f db) := by
  have hmap : Keyed.modify TopicData.path path g (db.map TopicData.ofC) =
      (Keyed.modify CoapBroker.TopicData.path path f db).map TopicData.ofC :=
    Keyed.modify_map (fun _ => rfl) h
  rw [ofC, TopicDB.modify, hmap, ofC, Keyed.length_modify]

theorem updateTopicInfo_ofC (topicMa : ℤ) :
    ((ofC db).modify path fun t => { t with topicMa }) =
      ofC (db.updateTopicInfo path topicMa).1 := by
  rw [CoapBroker.TopicDB.updateTopicInfo_fst]
  refine modify_ofC fun t => ?_
  rw [TopicData.ofC, TopicData.ofC, CoapBroker.TopicDB.normData_getD]

theorem updateTopicData_ofC (data : CStr) (dataMa : ℤ) :
    ((ofC db).modify path fun t => { t with data, dataMa }) =
      ofC (db.updateTopicData path dataMa (some data.bytes) data.length).1 := by
  rw [CoapBroker.TopicDB.updateTopicData_fst]
  refine modify_ofC fun t => ?_
  rw [TopicData.ofC, TopicData.ofC, CoapBroker.TopicDB.copyData_getD, dataString, CStr.length,
    List.take_length, CStr.read_bytes]

theorem addTopic_ofC (hpath : 0 < path.length) (topicMa : ℤ) :
    (ofC db).addTopic path topicMa =
      (ofC (db.addTopicWEC path path.length topicMa).1,
        (db.addTopicWEC path path.length topicMa).2) := by
  have hne : path ≠ CStr.empty := by
    rintro rfl
    exact absurd hpath (lt_irrefl 0)
  by_cases hmem : path ∈ db.paths
  · rw [TopicDB.addTopic, if_neg hne, if_pos (paths_ofC ▸ hmem), updateTopicInfo_ofC,
      CoapBroker.TopicDB.addTopicWEC_of_mem hmem, CoapBroker.TopicDB.updateTopicInfo_snd,
      CoapBroker.TopicDB.getTopic_isSome.2 hmem]
  · rw [addTopic_of_notMem (paths_ofC ▸ hmem) hne,
      CoapBroker.TopicDB.addTopicWEC_of_notMem hmem hpath]
    rw [ofC, ofC, List.map_append, List.length_append, List.length_singleton, Nat.cast_add,
      Nat.cast_one]
    rfl

theorem deleteTopic_ofC (hdb : ∀ t ∈ db, t.path ≠ CStr.empty) :
    (ofC db).deleteTopic path = (ofC (db.deleteTopic path).1, (db.deleteTopic path).2) := by
  rw [CoapBroker.TopicDB.deleteTopic_fst, CoapBroker.TopicDB.deleteTopic_snd]
  by_cases hmem : path ∈ db.paths
  · have hmem' : path ∈ (ofC db).paths := paths_ofC ▸ hmem
    have herase : Keyed.erase TopicData.path path (db.map TopicData.ofC) =
        (Keyed.erase CoapBroker.TopicData.path path db).map TopicData.ofC :=
      Keyed.erase_map fun _ => rfl
    have hlen := Keyed.length_erase hmem
    rw [deleteTopic_of_mem hmem' ((exact_ofC hdb).path_ne_empty hmem'),
      CoapBroker.TopicDB.getTopic_isSome.2 hmem, ofC, ofC, herase, ← hlen, Nat.cast_add,
      Nat.cast_one, add_sub_cancel_right]
  · rw [deleteTopic_of_notMem (paths_ofC ▸ hmem), Keyed.erase_of_notMem hmem,
      CoapBroker.TopicDB.getTopic_eq_none.2 hmem]
    rfl

end TopicDB

/-! ## Operations -/

/-- The operations. The paths that are added are not empty. -/
inductive Op
  | addTopic (path : CStr) (hpath : 0 < path.length) (topicMa : ℤ)
  | updateInfo (path : CStr) (topicMa : ℤ)
  | updateData (path : CStr) (data : CStr) (dataMa : ℤ)
  | deleteTopic (path : CStr)
  | copyTopic (path : CStr)

/-- The operation of the C broker. -/
def Op.toC : Op → StoreOp
  | .addTopic path hpath topicMa => .addTopicWEC path hpath topicMa
  | .updateInfo path topicMa => .updateTopicInfo path topicMa
  | .updateData path data dataMa => .updateTopicData path dataMa (some data.bytes) data.length
  | .deleteTopic path => .deleteTopic path
  | .copyTopic path => .cloneTopic path

namespace Nodes

open CoapBroker.Nodes (Result)

/-- Calling a function; those of a node are skipped when there is no node. -/
def step (m : Malloc) (s : Nodes) : Op → Except HeapFault (Nodes × Result)
  | .addTopic path _ topicMa => (s.addTopic m path topicMa).map fun (s, b) => (s, .flag b)
  | .updateInfo path topicMa => do
    let p ← s.getTopic path
    (s.updateTopic p fun t => { t with topicMa }).map fun (s, b) => (s, .flag b)
  | .updateData path data dataMa => do
    let p ← s.getTopic path
    (s.updateTopic p fun t => { t with data, dataMa }).map fun (s, b) => (s, .flag b)
  | .deleteTopic path => (s.deleteTopic path).map fun (s, b) => (s, .flag b)
  | .copyTopic path => (s.copyTopic m path).map fun (s, p) => (s, .node p)

/-- The empty store. -/
def empty : Nodes := ⟨∅, none, 0⟩

end Nodes

/-! ## Bisimilarity -/

/-- Both stores hold the records of one list, none of which has an empty path, and the counter
    is their number. -/
def Bisimilar (s : CoapBroker.Nodes) (s' : Nodes) : Prop :=
  ∃ db : CoapBroker.TopicDB, s.Represents db ∧ s'.Represents (TopicDB.ofC db) ∧
    ∀ t ∈ db, t.path ≠ CStr.empty

/-- The results are the same: the flags, or the records copied. -/
def SameResult (s : CoapBroker.Nodes) (s' : Nodes) :
    CoapBroker.Nodes.Result → CoapBroker.Nodes.Result → Prop
  | .flag b, .flag b' => b = b'
  | .node none, .node none => True
  | .node (some a), .node (some a') =>
    ∃ c c', s.heap.lookup a = some c ∧ s'.heap.lookup a' = some c' ∧ c'.val = TopicData.ofC c.val
  | _, _ => False

variable {s : CoapBroker.Nodes} {s' : Nodes}

/-- Functions of the two stores that agree with corresponding functions of the lists. -/
theorem bisimilar_of_agrees {run : Except HeapFault (CoapBroker.Nodes × Bool)}
    {run' : Except HeapFault (Nodes × Bool)} {db : CoapBroker.TopicDB} {flag : Bool}
    (h : CoapBroker.Nodes.Agrees run (db, flag)) (h' : Nodes.Agrees run' (TopicDB.ofC db, flag))
    (hdb : ∀ t ∈ db, t.path ≠ CStr.empty) :
    ∃ s o s' o', (run.map fun (s, b) => (s, CoapBroker.Nodes.Result.flag b)) = .ok (s, o) ∧
      (run'.map fun (s, b) => (s, CoapBroker.Nodes.Result.flag b)) = .ok (s', o') ∧
      Bisimilar s s' ∧ SameResult s s' o o' := by
  obtain ⟨s, rfl, hs⟩ := h
  obtain ⟨s', rfl, hs'⟩ := h'
  exact ⟨s, .flag flag, s', .flag flag, rfl, rfl, ⟨db, hs, hs', hdb⟩, rfl⟩

/-- Each operation keeps the stores bisimilar, with the same result. -/
theorem step_bisimilar (m m' : Malloc) (s : CoapBroker.Nodes) (s' : Nodes) (op : Op)
    (h : Bisimilar s s') :
    ∃ s₁ o s₁' o', CoapBroker.Nodes.step m s op.toC = .ok (s₁, o) ∧
      Nodes.step m' s' op = .ok (s₁', o') ∧ Bisimilar s₁ s₁' ∧ SameResult s₁ s₁' o o' := by
  obtain ⟨db, hs, hs', hdb⟩ := h
  have hexact := TopicDB.exact_ofC hdb
  -- changing a record keeps its path
  have hmodify : ∀ {f : CoapBroker.TopicData → CoapBroker.TopicData} (path : CStr),
      (∀ t, (f t).path = t.path) →
      ∀ t ∈ Keyed.modify CoapBroker.TopicData.path path f db, t.path ≠ CStr.empty := by
    intro f path hf t ht
    rcases Keyed.mem_modify ht with ht | ⟨x, hx, -, rfl⟩
    · exact hdb t ht
    · rw [hf]
      exact hdb x hx
  have hflag : ∀ path, decide (path ∈ (TopicDB.ofC db).paths) = (db.getTopic path).isSome := by
    intro path
    rw [Bool.eq_iff_iff, decide_eq_true_eq, TopicDB.paths_ofC, CoapBroker.TopicDB.getTopic_isSome]
  cases op with
  | addTopic path hpath topicMa =>
    have h := CoapBroker.Nodes.addTopicWEC_agrees m hs path path.length topicMa
    have h' := Nodes.addTopic_agrees hs' m' path topicMa
    rw [TopicDB.addTopic_ofC hpath] at h'
    have hdb' : ∀ t ∈ (db.addTopicWEC path path.length topicMa).1, t.path ≠ CStr.empty := by
      intro t ht
      by_cases hmem : path ∈ db.paths
      · rw [CoapBroker.TopicDB.addTopicWEC_of_mem hmem,
          CoapBroker.TopicDB.updateTopicInfo_fst] at ht
        refine hmodify path ?_ t ht
        exact fun _ => rfl
      · rw [CoapBroker.TopicDB.addTopicWEC_of_notMem hmem hpath] at ht
        rcases List.mem_append.1 ht with ht | ht
        · exact hdb t ht
        · rw [List.mem_singleton.1 ht]
          rintro rfl
          exact absurd hpath (lt_irrefl 0)
    exact bisimilar_of_agrees h h' hdb'
  | updateInfo path topicMa =>
    have h := CoapBroker.Nodes.updateTopicInfo_agrees hs path topicMa
    obtain ⟨p, hp, h'⟩ := Nodes.updateTopic_agrees hs' hexact path fun t => { t with topicMa }
    rw [TopicDB.updateTopicInfo_ofC, hflag, ← CoapBroker.TopicDB.updateTopicInfo_snd] at h'
    have hdb' : ∀ t ∈ (db.updateTopicInfo path topicMa).1, t.path ≠ CStr.empty := by
      rw [CoapBroker.TopicDB.updateTopicInfo_fst]
      exact hmodify path fun _ => rfl
    rw [Nodes.step, hp]
    exact bisimilar_of_agrees h h' hdb'
  | updateData path data dataMa =>
    have h := CoapBroker.Nodes.updateTopicData_agrees hs path dataMa (some data.bytes) data.length
    obtain ⟨p, hp, h'⟩ := Nodes.updateTopic_agrees hs' hexact path fun t => { t with data, dataMa }
    rw [TopicDB.updateTopicData_ofC, hflag, ← CoapBroker.TopicDB.updateTopicData_snd] at h'
    have hdb' : ∀ t ∈ (db.updateTopicData path dataMa (some data.bytes) data.length).1,
        t.path ≠ CStr.empty := by
      rw [CoapBroker.TopicDB.updateTopicData_fst]
      exact hmodify path fun _ => rfl
    rw [Nodes.step, hp]
    exact bisimilar_of_agrees h h' hdb'
  | deleteTopic path =>
    have h := CoapBroker.Nodes.deleteTopic_agrees hs path
    have h' := Nodes.deleteTopic_agrees hs' path
    rw [TopicDB.deleteTopic_ofC hdb] at h'
    have hdb' : ∀ t ∈ (db.deleteTopic path).1, t.path ≠ CStr.empty := by
      rw [CoapBroker.TopicDB.deleteTopic_fst]
      exact fun t ht => hdb t (Keyed.erase_sublist.subset ht)
    exact bisimilar_of_agrees h h' hdb'
  | copyTopic path =>
    obtain ⟨s₁, p, hclone, hs₁, hp⟩ := CoapBroker.Nodes.cloneTopic_agrees m hs path
    obtain ⟨s₁', p', hcopy, hs₁', hp'⟩ := Nodes.copyTopic_agrees hs' hexact m' path
    refine ⟨s₁, .node p, s₁', .node p', ?_, ?_, ⟨db, hs₁, hs₁', hdb⟩, ?_⟩
    · rw [Op.toC, CoapBroker.Nodes.step, hclone]
      rfl
    · rw [Nodes.step, hcopy]
      rfl
    · rw [TopicDB.find_ofC, CoapBroker.TopicDB.getTopic, ← CoapBroker.TopicDB.cloneTopic] at hp'
      rcases hfind : db.cloneTopic path with _ | t <;> rw [hfind] at hp hp'
      · obtain rfl : p = none := hp
        obtain rfl : p' = none := hp'
        trivial
      · obtain ⟨a, rfl, ha⟩ := hp
        obtain ⟨a', c', rfl, ha', hc'⟩ := hp'
        exact ⟨_, c', ha, ha', hc'⟩

/-- Over every sequence of operations from the empty stores, whatever addresses allocation
    gives, all operations go through on both stores, which hold the same records in the same
    order after each of them, the counter being their number; and the results are the same. -/
theorem stores_bisimilar (m m' : Malloc) (ops : List Op) :
    ∃ tr s tr' s',
      execTrace (CoapBroker.Nodes.step m) CoapBroker.Nodes.empty (ops.map Op.toC) = .ok (tr, s) ∧
      execTrace (Nodes.step m') Nodes.empty ops = .ok (tr', s') ∧ Bisimilar s s' ∧
      List.Forall₂ (fun x y => Bisimilar x.dst y.dst ∧ SameResult x.dst y.dst x.out y.out)
        tr tr' := by
  refine execTrace_bisimulates (R := Bisimilar) (A := fun s o s' o' => SameResult s s' o o')
    (fun s s' op h => step_bisimilar m m' s s' op h) ?_ ops
  exact ⟨[], ⟨[], .nil, rfl⟩, ⟨⟨[], .nil, rfl⟩, rfl⟩, fun t ht => absurd ht List.not_mem_nil⟩

end CoapBroker.Cpp
