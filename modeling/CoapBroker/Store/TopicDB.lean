import CoapBroker.Lib.CStr
import CoapBroker.Lib.Keyed

/-!
# The topic store

The store of the C broker (`LinkedListDB.c`), as the list of its records in the
order of the nodes; the nodes themselves, with their pointers, are in
`CoapBroker.Store.Nodes`. Every function walks the list up to the first record
with the path it is given, so the functions are those of a list of records with
a key (`CoapBroker.Lib.Keyed`).

`updateTopicInfo` and `updateTopicData` look the record up and hand all of its
fields to `setTopic`; what they come to is `updateTopicInfo_fst` and
`updateTopicData_fst`.
-/

namespace CoapBroker

/-- A record of the store. -/
structure TopicData where
  path : CStr
  /-- The last data published (`NULL` when there is none). -/
  data : Option CStr
  /-- The time the topic expires at, `0` meaning never. -/
  topicMa : ℤ
  /-- The time the data expires at, `0` meaning never. -/
  dataMa : ℤ
  deriving DecidableEq

/-- The store: the records, in the order of the nodes. -/
abbrev TopicDB := List TopicData

/-- Equality of two strings, neither of which is `NULL`. -/
def compareString : Option CStr → Option CStr → Bool
  | some a, some b => a = b
  | _, _ => false

theorem compareString_some {a b : CStr} : compareString (some a) (some b) = true ↔ a = b :=
  decide_eq_true_iff

/-- The copy `setTopic` makes of the `dataSize` bytes at `data`: a string, up to the
    first `NUL`; no data when the size is `0`. -/
def copyData (data : Option (List Byte)) (dataSize : ℕ) : Option CStr :=
  match data with
  | some mem => if dataSize > 0 then some (CStr.read (mem.take dataSize)) else none
  | none => none

namespace TopicDB

variable (db : TopicDB)

/-- The paths of the records. -/
def paths : List CStr := db.map TopicData.path

/-- `getTopic`: the first record with the path. -/
def getTopic (path : CStr) : Option TopicData := Keyed.find TopicData.path db path

/-- `cloneTopic`: a copy of the first record with the path. -/
def cloneTopic (path : CStr) : Option TopicData := Keyed.find TopicData.path db path

/-- `setTopic`: writing all fields but the path. -/
def setTopic (path : CStr) (data : Option (List Byte)) (dataSize : ℕ) (topicMa dataMa : ℤ) :
    TopicDB × Bool :=
  match getTopic db path with
  | some _ =>
    (Keyed.modify TopicData.path path
      (fun t => { t with data := copyData data dataSize, topicMa, dataMa }) db, true)
  | none => (db, false)

/-- `addTopic`: a new record at the end, without data. -/
def addTopic (path : CStr) (pathSize : ℕ) (topicMa : ℤ) : TopicDB × Bool :=
  if pathSize > 0 then
    (db ++ [{ path := CStr.read (path.bytes.take pathSize), data := none, topicMa, dataMa := 0 }],
      true)
  else (db, false)

/-- `updateTopicInfo`: writing `topicMa`, by writing all fields. -/
def updateTopicInfo (path : CStr) (topicMa : ℤ) : TopicDB × Bool :=
  match getTopic db path with
  | some temp =>
    let dataSize := match temp.data with
      | none => 0
      | some d => d.length
    setTopic db path (temp.data.map CStr.bytes) dataSize topicMa temp.dataMa
  | none => (db, false)

/-- `updateTopicData`: writing the data and `dataMa`, by writing all fields. -/
def updateTopicData (path : CStr) (dataMa : ℤ) (data : Option (List Byte)) (dataSize : ℕ) :
    TopicDB × Bool :=
  match getTopic db path with
  | some temp => setTopic db path data dataSize temp.topicMa dataMa
  | none => (db, false)

/-- `addTopicWEC`: a new record, or a new `topicMa` when the path exists. -/
def addTopicWEC (path : CStr) (pathSize : ℕ) (topicMa : ℤ) : TopicDB × Bool :=
  match getTopic db path with
  | some _ => updateTopicInfo db path topicMa
  | none => addTopic db path pathSize topicMa

/-- `deleteTopic`. -/
def deleteTopic (path : CStr) : TopicDB × Bool :=
  match getTopic db path with
  | some _ => (Keyed.erase TopicData.path path db, true)
  | none => (db, false)

/-- `deleteTopicData`: clearing the data and `dataMa`. -/
def deleteTopicData (path : CStr) : TopicDB × Bool :=
  match getTopic db path with
  | some _ =>
    (Keyed.modify TopicData.path path (fun t => { t with data := none, dataMa := 0 }) db, true)
  | none => (db, false)

/-! ## What the operations come to -/

variable {db} {path path' : CStr}

theorem getTopic_isSome : (getTopic db path).isSome ↔ path ∈ db.paths := Keyed.find_isSome

theorem getTopic_eq_none : getTopic db path = none ↔ path ∉ db.paths := Keyed.find_eq_none

theorem mem_paths_of_getTopic {t : TopicData} (h : getTopic db path = some t) :
    path ∈ db.paths :=
  getTopic_isSome.1 (h ▸ rfl)

/-- An empty string becomes absent data when it is written back. -/
def normData (data : Option CStr) : Option CStr := data.filter fun d => d ≠ CStr.empty

theorem copyData_self (d : Option CStr) :
    copyData (d.map CStr.bytes) (match d with | none => 0 | some d => d.length) = normData d := by
  cases d with
  | none => rfl
  | some d =>
    by_cases h : d = CStr.empty
    · subst h; rfl
    · have hpos : 0 < d.bytes.length := List.length_pos_iff.2 fun h0 => h (CStr.ext h0)
      simp [copyData, normData, Option.filter, CStr.length, hpos, h]

/-- `updateTopicInfo` writes `topicMa`, an empty string of data becoming absent. -/
theorem updateTopicInfo_fst (topicMa : ℤ) :
    (updateTopicInfo db path topicMa).1 = Keyed.modify TopicData.path path
      (fun t => { t with data := normData t.data, topicMa }) db := by
  induction db with
  | nil => rfl
  | cons t db ih =>
    simp only [updateTopicInfo, setTopic, getTopic, Keyed.find_cons, Keyed.modify] at ih ⊢
    by_cases h : t.path = path
    · simp only [if_pos h, copyData_self]
    · simp only [if_neg h]
      rw [← ih]
      split <;> rfl

theorem updateTopicInfo_snd (topicMa : ℤ) :
    (updateTopicInfo db path topicMa).2 = (getTopic db path).isSome := by
  rw [updateTopicInfo]
  split
  · next h => simp [setTopic, h]
  · next h => simp [h]

/-- `updateTopicData` writes the data and `dataMa`. -/
theorem updateTopicData_fst (dataMa : ℤ) (data : Option (List Byte)) (dataSize : ℕ) :
    (updateTopicData db path dataMa data dataSize).1 = Keyed.modify TopicData.path path
      (fun t => { t with data := copyData data dataSize, dataMa }) db := by
  induction db with
  | nil => rfl
  | cons t db ih =>
    simp only [updateTopicData, setTopic, getTopic, Keyed.find_cons, Keyed.modify] at ih ⊢
    by_cases h : t.path = path
    · simp only [if_pos h]
    · simp only [if_neg h]
      rw [← ih]
      split <;> rfl

/-- The record with new data is found again. -/
theorem cloneTopic_updateTopicData {t : TopicData} (h : getTopic db path = some t) (dataMa : ℤ)
    (data : Option (List Byte)) (dataSize : ℕ) :
    cloneTopic (updateTopicData db path dataMa data dataSize).1 path =
      some { t with data := copyData data dataSize, dataMa } := by
  have hfind : Keyed.find TopicData.path db path = some t := h
  rw [updateTopicData_fst]
  refine (Keyed.find_modify (f := fun t : TopicData =>
    { t with data := copyData data dataSize, dataMa }) fun _ => rfl).trans ?_
  rw [if_pos rfl, hfind]
  rfl

theorem updateTopicData_snd (dataMa : ℤ) (data : Option (List Byte)) (dataSize : ℕ) :
    (updateTopicData db path dataMa data dataSize).2 = (getTopic db path).isSome := by
  rw [updateTopicData]
  split
  · next h => simp [setTopic, h]
  · next h => simp [h]

/-- `deleteTopicData` clears the data and `dataMa`. -/
theorem deleteTopicData_fst : (deleteTopicData db path).1 = Keyed.modify TopicData.path path
    (fun t => { t with data := none, dataMa := 0 }) db := by
  rw [deleteTopicData]
  split
  · rfl
  · next h => exact (Keyed.modify_of_notMem (getTopic_eq_none.1 h)).symm

theorem deleteTopicData_snd : (deleteTopicData db path).2 = (getTopic db path).isSome := by
  rw [deleteTopicData]
  split <;> next h => simp [h]

/-- `deleteTopic` takes the record out. -/
theorem deleteTopic_fst :
    (deleteTopic db path).1 = Keyed.erase TopicData.path path db := by
  rw [deleteTopic]
  split
  · rfl
  · next h => exact (Keyed.erase_of_notMem (getTopic_eq_none.1 h)).symm

theorem deleteTopic_snd : (deleteTopic db path).2 = (getTopic db path).isSome := by
  rw [deleteTopic]
  split <;> next h => simp [h]

/-- On a path that is not there, `addTopicWEC` adds a record. -/
theorem addTopicWEC_of_notMem (h : path ∉ db.paths) (hlen : 0 < path.length) (topicMa : ℤ) :
    addTopicWEC db path path.length topicMa =
      (db ++ [{ path, data := none, topicMa, dataMa := 0 }], true) := by
  have hread : CStr.read (path.bytes.take path.length) = path := by
    rw [CStr.length, List.take_length, CStr.read_bytes]
  rw [addTopicWEC, getTopic_eq_none.2 h]
  simp only [addTopic, if_pos hlen, hread]

/-- On a path that is there, `addTopicWEC` writes `topicMa`. -/
theorem addTopicWEC_of_mem (h : path ∈ db.paths) (n : ℕ) (topicMa : ℤ) :
    addTopicWEC db path n topicMa = updateTopicInfo db path topicMa := by
  obtain ⟨t, ht⟩ := Option.isSome_iff_exists.1 (getTopic_isSome.2 h)
  rw [addTopicWEC, ht]

/-! ## Paths -/

@[simp] theorem paths_updateTopicInfo (topicMa : ℤ) :
    (updateTopicInfo db path topicMa).1.paths = db.paths := by
  rw [updateTopicInfo_fst]
  exact Keyed.keys_modify fun _ => rfl

@[simp] theorem paths_updateTopicData (dataMa : ℤ) (data : Option (List Byte)) (n : ℕ) :
    (updateTopicData db path dataMa data n).1.paths = db.paths := by
  rw [updateTopicData_fst]
  exact Keyed.keys_modify fun _ => rfl

@[simp] theorem paths_deleteTopicData : (deleteTopicData db path).1.paths = db.paths := by
  rw [deleteTopicData_fst]
  exact Keyed.keys_modify fun _ => rfl

theorem paths_filter (db : TopicDB) (p : CStr → Prop) [DecidablePred p] :
    TopicDB.paths (db.filter fun t => p t.path) = db.paths.filter p :=
  Keyed.keys_filter p

end TopicDB

end CoapBroker
