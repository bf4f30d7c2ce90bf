import CoapBroker.Libcoap.Resource
import CoapBroker.Store.TopicDB

/-!
# The topic store of the C++ broker

The class `TopicDB` (`LinkedListDB.cpp`), as the list of its records in the order of the
nodes, with the counter `length_` beside it. A record always has data, an empty string
standing for none.

The lookups test the counter and then read the head of the list, which must be there; it is
when the counter is exact (`TopicDB.Exact`), and the operations keep it so.
-/

namespace CoapBroker.Cpp

/-- A record of the store. -/
structure TopicData where
  path : CStr
  data : CStr := CStr.empty
  topicMa : ℤ := 0
  dataMa : ℤ := 0
  deriving DecidableEq

/-- A record of the C broker, absent data being the empty string. -/
def TopicData.ofC (t : CoapBroker.TopicData) : TopicData :=
  ⟨t.path, t.data.getD CStr.empty, t.topicMa, t.dataMa⟩

/-- The store. -/
structure TopicDB where
  nodes : List TopicData := []
  length : ℤ := 0
  deriving DecidableEq

namespace TopicDB

variable (db : TopicDB)

/-- The paths of the records. -/
def paths : List CStr := db.nodes.map TopicData.path

/-- `get_topic`: the first node with the path, which is not empty. Strings that are both
    empty do not count as equal, so that `string_equal` is equality here. -/
def getTopic (path : CStr) : Except Fault (Option TopicData) :=
  if path = CStr.empty ∨ db.length = 0 then .ok none
  else
    match db.nodes with
    | [] => .error .nullDeref
    | _ :: _ => .ok (Keyed.find TopicData.path db.nodes path)

/-- `copy_topic`: a copy of that node. -/
def copyTopic (path : CStr) : Except Fault (Option TopicData) := getTopic db path

/-- Updating the first node with the path, if there is one. -/
def modify (path : CStr) (update : TopicData → TopicData) : TopicDB :=
  { db with nodes := Keyed.modify TopicData.path path update db.nodes }

/-- `get_topic(path)->update_topic(..)`. -/
def updateTopic (path : CStr) (update : TopicData → TopicData) : Except Fault TopicDB := do
  match ← getTopic db path with
  | none => .error .nullDeref
  | some _ => .ok (modify db path update)

/-- `add_topic`: a new node at the end, or a new `topic_ma` when the path exists. -/
def addTopic (path : CStr) (topicMa : ℤ) : TopicDB × Bool :=
  if path = CStr.empty then (db, false)
  else if path ∈ db.paths then (modify db path fun t => { t with topicMa }, true)
  else ({ nodes := db.nodes ++ [{ path, topicMa }], length := db.length + 1 }, true)

/-- `is_empty`. -/
def isEmpty : Bool := db.nodes = []

/-- `delete_topic`. -/
def deleteTopic (path : CStr) : TopicDB × Bool :=
  if path = CStr.empty ∨ db.isEmpty then (db, false)
  else if path ∈ db.paths then
    ({ nodes := Keyed.erase TopicData.path path db.nodes, length := db.length - 1 }, true)
  else (db, false)

/-! ## What the operations come to -/

/-- The counter is exact, and no path is empty. -/
structure Exact : Prop where
  length : db.length = db.nodes.length
  path_ne : ∀ t ∈ db.nodes, t.path ≠ CStr.empty

variable {db} {path : CStr}

theorem Exact.path_ne_empty (hdb : db.Exact) (h : path ∈ db.paths) : path ≠ CStr.empty := by
  obtain ⟨t, ht, rfl⟩ := List.mem_map.1 h
  exact hdb.path_ne t ht

/-- With an exact counter, a lookup does not fail. -/
theorem getTopic_eq (hdb : db.Exact) :
    db.getTopic path = .ok (Keyed.find TopicData.path db.nodes path) := by
  rw [getTopic]
  split_ifs with h
  · have hnone : path ∉ db.nodes.map TopicData.path := by
      rcases h with rfl | h0
      · exact fun hmem => hdb.path_ne_empty hmem rfl
      · rw [hdb.length, Int.natCast_eq_zero, List.length_eq_zero_iff] at h0
        rw [h0]
        exact List.not_mem_nil
    rw [Keyed.find_eq_none.2 hnone]
  · rcases hn : db.nodes with _ | ⟨t, ts⟩
    · refine absurd (.inr ?_) h
      rw [hdb.length, hn]
      rfl
    · rfl

theorem updateTopic_eq (hdb : db.Exact) (h : path ∈ db.paths) (update : TopicData → TopicData) :
    db.updateTopic path update = .ok (db.modify path update) := by
  obtain ⟨t, ht⟩ := Option.isSome_iff_exists.1 (Keyed.find_isSome.2 h)
  rw [updateTopic, getTopic_eq hdb, ht]
  rfl

theorem addTopic_of_notMem (h : path ∉ db.paths) (hne : path ≠ CStr.empty) (topicMa : ℤ) :
    db.addTopic path topicMa =
      ({ nodes := db.nodes ++ [{ path, topicMa }], length := db.length + 1 }, true) := by
  rw [addTopic, if_neg hne, if_neg h]

theorem deleteTopic_of_mem (h : path ∈ db.paths) (hne : path ≠ CStr.empty) :
    db.deleteTopic path =
      ({ nodes := Keyed.erase TopicData.path path db.nodes, length := db.length - 1 }, true) := by
  have hnodes : db.nodes ≠ [] := by
    intro hnil
    rw [paths, hnil] at h
    exact absurd h List.not_mem_nil
  rw [deleteTopic, if_neg (not_or.2 ⟨hne, by simpa [isEmpty] using hnodes⟩), if_pos h]

theorem deleteTopic_of_notMem (h : path ∉ db.paths) : db.deleteTopic path = (db, false) := by
  rw [deleteTopic, if_neg h, ite_self]

/-! ## The counter -/

theorem paths_modify {update : TopicData → TopicData} (hupdate : ∀ t, (update t).path = t.path) :
    (db.modify path update).paths = db.paths :=
  Keyed.keys_modify hupdate

theorem paths_filter (db : TopicDB) (n : ℤ) (p : CStr → Prop) [DecidablePred p] :
    paths ⟨db.nodes.filter fun t => p t.path, n⟩ = db.paths.filter p :=
  Keyed.keys_filter p

theorem Exact.modify (hdb : db.Exact) {update : TopicData → TopicData}
    (hupdate : ∀ t, (update t).path = t.path) : Exact (db.modify path update) where
  length := by
    rw [TopicDB.modify, Keyed.length_modify]
    exact hdb.length
  path_ne t ht := by
    rcases Keyed.mem_modify ht with ht | ⟨x, hx, -, rfl⟩
    · exact hdb.path_ne t ht
    · rw [hupdate]
      exact hdb.path_ne x hx

theorem length_addTopic (hlen : db.length = db.nodes.length) (path : CStr) (topicMa : ℤ) :
    (db.addTopic path topicMa).1.length = (db.addTopic path topicMa).1.nodes.length := by
  rw [addTopic]
  split_ifs
  · exact hlen
  · rw [modify, Keyed.length_modify]
    exact hlen
  · rw [hlen, List.length_append, List.length_singleton, Nat.cast_add, Nat.cast_one]

theorem length_deleteTopic (hlen : db.length = db.nodes.length) (path : CStr) :
    (db.deleteTopic path).1.length = (db.deleteTopic path).1.nodes.length := by
  rw [deleteTopic]
  split_ifs with hempty hmem
  · exact hlen
  · have herase := Keyed.length_erase hmem
    dsimp only
    omega
  · exact hlen

/-- The node is found again when it has been updated. -/
theorem copyTopic_modify (hdb : db.Exact) {update : TopicData → TopicData}
    (hupdate : ∀ t, (update t).path = t.path) {t : TopicData}
    (h : Keyed.find TopicData.path db.nodes path = some t) :
    (db.modify path update).copyTopic path = .ok (some (update t)) := by
  rw [copyTopic, getTopic_eq (hdb.modify hupdate), TopicDB.modify, Keyed.find_modify hupdate,
    if_pos rfl, h]
  rfl

theorem Exact.addTopic (hdb : db.Exact) (hne : path ≠ CStr.empty) (topicMa : ℤ) :
    Exact (db.addTopic path topicMa).1 where
  length := length_addTopic hdb.length path topicMa
  path_ne := by
    rw [TopicDB.addTopic, if_neg hne]
    split_ifs
    · have hmodify : Exact (db.modify path fun t => { t with topicMa }) := hdb.modify fun _ => rfl
      exact hmodify.path_ne
    · intro t ht
      rcases List.mem_append.1 ht with ht | ht
      · exact hdb.path_ne t ht
      · rw [List.mem_singleton.1 ht]
        exact hne

theorem Exact.deleteTopic (hdb : db.Exact) : Exact (db.deleteTopic path).1 where
  length := length_deleteTopic hdb.length path
  path_ne := by
    by_cases h : path ∈ db.paths
    · rw [deleteTopic_of_mem h (hdb.path_ne_empty h)]
      exact fun t ht => hdb.path_ne t (Keyed.erase_sublist.subset ht)
    · rw [deleteTopic_of_notMem h]
      exact hdb.path_ne

end TopicDB

end CoapBroker.Cpp
