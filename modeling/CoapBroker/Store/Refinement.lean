import CoapBroker.Lib.OrdMap
import CoapBroker.Lib.Run
import CoapBroker.Store.Nodes

/-!
# The topic store is a map

What the topic store is for: a map from paths to entries, in the order of their insertion
(`mapStep`). The nodes do what the map does, operation by operation, over every sequence of
operations from the empty store (`nodes_refine_map`): no operation fails, the records have
distinct paths and denote the map, and the results are those of the map.

Absent data counts as the empty string.
-/

namespace CoapBroker

open PtrList

/-! ## The map -/

/-- The entry of a topic. -/
structure Entry where
  data : CStr
  topicMa : ℤ
  dataMa : ℤ
  deriving DecidableEq

/-- The entry of a record. -/
def TopicData.entry (t : TopicData) : Entry := ⟨t.data.getD CStr.empty, t.topicMa, t.dataMa⟩

/-- The operations. The broker adds paths that are not empty, with their length. -/
inductive StoreOp
  | addTopicWEC (path : CStr) (hpath : 0 < path.length) (topicMa : ℤ)
  | updateTopicInfo (path : CStr) (topicMa : ℤ)
  | updateTopicData (path : CStr) (dataMa : ℤ) (data : Option (List Byte)) (dataSize : ℕ)
  | deleteTopicData (path : CStr)
  | deleteTopic (path : CStr)
  | cloneTopic (path : CStr)

/-- The result of an operation on the map: whether it has applied, or the path with its
    entry. -/
inductive MapResult
  | flag (b : Bool)
  | entry (e : Option (CStr × Entry))

/-- The data of an update, as a string: it ends at the first `NUL`. -/
def dataString (data : Option (List Byte)) (dataSize : ℕ) : CStr :=
  match data with
  | some mem => CStr.read (mem.take dataSize)
  | none => CStr.empty

/-- What an operation does to the map. -/
def mapStep (m : OrdMap CStr Entry) : StoreOp → OrdMap CStr Entry × MapResult
  | .addTopicWEC path _ topicMa =>
    match hm : m.get path with
    | some _ => (m.modify path fun e => { e with topicMa }, .flag true)
    | none => (m.push path { data := CStr.empty, topicMa, dataMa := 0 } hm, .flag true)
  | .updateTopicInfo path topicMa =>
    (m.modify path fun e => { e with topicMa }, .flag (m.get path).isSome)
  | .updateTopicData path dataMa data dataSize =>
    (m.modify path fun e => { e with data := dataString data dataSize, dataMa },
      .flag (m.get path).isSome)
  | .deleteTopicData path =>
    (m.modify path fun e => { e with data := CStr.empty, dataMa := 0 },
      .flag (m.get path).isSome)
  | .deleteTopic path => (m.erase path, .flag (m.get path).isSome)
  | .cloneTopic path => (m, .entry ((m.get path).map (Prod.mk path)))

/-! ## The records denote the map -/

namespace TopicDB

/-- The map the records denote. -/
def toMap (db : TopicDB) (hdb : db.paths.Nodup) : OrdMap CStr Entry :=
  Keyed.toOrdMap TopicData.path TopicData.entry db hdb

variable {db : TopicDB} {path : CStr}

theorem get_toMap (hdb : db.paths.Nodup) :
    (db.toMap hdb).get path = (db.getTopic path).map TopicData.entry := rfl

theorem isSome_get_toMap (hdb : db.paths.Nodup) :
    ((db.toMap hdb).get path).isSome = (db.getTopic path).isSome := by
  rw [get_toMap, Option.isSome_map]

theorem normData_getD (data : Option CStr) :
    (normData data).getD CStr.empty = data.getD CStr.empty := by
  rcases data with _ | d
  · rfl
  · by_cases h : d = CStr.empty <;> simp [normData, Option.filter, h]

theorem copyData_getD (data : Option (List Byte)) (n : ℕ) :
    (copyData data n).getD CStr.empty = dataString data n := by
  rcases data with _ | mem
  · rfl
  · rcases n with _ | n
    · rfl
    · rfl

theorem modify_toMap (hdb : db.paths.Nodup) {f : TopicData → TopicData} {g : Entry → Entry}
    (hf : ∀ t, (f t).path = t.path) (hg : ∀ t : TopicData, (f t).entry = g t.entry) :
    ∃ h, toMap (Keyed.modify TopicData.path path f db) h = (db.toMap hdb).modify path g :=
  ⟨Keyed.Distinct.modify hdb hf, Keyed.toOrdMap_modify hdb hf hg⟩

theorem updateTopicInfo_toMap (hdb : db.paths.Nodup) (topicMa : ℤ) :
    ∃ h, toMap (db.updateTopicInfo path topicMa).1 h =
      (db.toMap hdb).modify path fun e => { e with topicMa } := by
  rw [updateTopicInfo_fst]
  refine modify_toMap hdb (fun _ => rfl) fun t => ?_
  rw [TopicData.entry, TopicData.entry, normData_getD]

theorem updateTopicData_toMap (hdb : db.paths.Nodup) (dataMa : ℤ) (data : Option (List Byte))
    (n : ℕ) :
    ∃ h, toMap (db.updateTopicData path dataMa data n).1 h =
      (db.toMap hdb).modify path fun e => { e with data := dataString data n, dataMa } := by
  rw [updateTopicData_fst]
  refine modify_toMap hdb (fun _ => rfl) fun t => ?_
  rw [TopicData.entry, TopicData.entry, copyData_getD]

theorem deleteTopicData_toMap (hdb : db.paths.Nodup) :
    ∃ h, toMap (db.deleteTopicData path).1 h =
      (db.toMap hdb).modify path fun e => { e with data := CStr.empty, dataMa := 0 } := by
  rw [deleteTopicData_fst]
  exact modify_toMap hdb (fun _ => rfl) fun _ => rfl

theorem deleteTopic_toMap (hdb : db.paths.Nodup) :
    ∃ h, toMap (db.deleteTopic path).1 h = (db.toMap hdb).erase path := by
  rw [deleteTopic_fst]
  exact ⟨Keyed.Distinct.erase hdb, Keyed.toOrdMap_erase hdb⟩

/-- A new path comes last, without data; an existing one gets the new expiry. -/
theorem addTopicWEC_toMap (hdb : db.paths.Nodup) (hpath : 0 < path.length) (topicMa : ℤ) :
    (db.addTopicWEC path path.length topicMa).2 = true ∧
    ∃ h, toMap (db.addTopicWEC path path.length topicMa).1 h =
      (mapStep (db.toMap hdb) (.addTopicWEC path hpath topicMa)).1 := by
  by_cases hmem : path ∈ db.paths
  · have hsome : (db.getTopic path).isSome := getTopic_isSome.2 hmem
    rw [addTopicWEC_of_mem hmem, updateTopicInfo_snd]
    refine ⟨hsome, ?_⟩
    obtain ⟨h, heq⟩ := @updateTopicInfo_toMap db path hdb topicMa
    refine ⟨h, heq.trans ?_⟩
    rw [mapStep]
    split
    · rfl
    · next hnone =>
      rw [← isSome_get_toMap hdb, hnone] at hsome
      exact absurd hsome Bool.false_ne_true
  · rw [addTopicWEC_of_notMem hmem hpath]
    refine ⟨rfl, Keyed.Distinct.append_singleton hdb hmem, ?_⟩
    refine (Keyed.toOrdMap_append hdb hmem).trans ?_
    rw [mapStep]
    split
    · next e hsome =>
      rw [get_toMap, getTopic_eq_none.2 hmem] at hsome
      cases hsome
    · rfl

end TopicDB

/-! ## The nodes -/

namespace Nodes

/-- The result of a function: an `int`, or a pointer to a node. -/
inductive Result
  | flag (b : Bool)
  | node (p : Ptr)

/-- Calling a function. -/
def step (m : Malloc) (s : Nodes) : StoreOp → Except HeapFault (Nodes × Result)
  | .addTopicWEC path _ topicMa =>
    (s.addTopicWEC m (some path) path.length topicMa).map fun (s, b) => (s, .flag b)
  | .updateTopicInfo path topicMa =>
    (s.updateTopicInfo (some path) topicMa).map fun (s, b) => (s, .flag b)
  | .updateTopicData path dataMa data dataSize =>
    (s.updateTopicData (some path) dataMa data dataSize).map fun (s, b) => (s, .flag b)
  | .deleteTopicData path => (s.deleteTopicData (some path)).map fun (s, b) => (s, .flag b)
  | .deleteTopic path => (s.deleteTopic (some path)).map fun (s, b) => (s, .flag b)
  | .cloneTopic path => (s.cloneTopic m (some path)).map fun (s, p) => (s, .node p)

/-- The empty store. -/
def empty : Nodes := ⟨∅, none⟩

/-- The nodes are a list of records with distinct paths that denote the map. -/
def Denotes (s : Nodes) (m : OrdMap CStr Entry) : Prop :=
  ∃ db : TopicDB, s.Represents db ∧ ∃ hdb : db.paths.Nodup, db.toMap hdb = m

/-- A result fits that of the map: the flags are equal, and a node has the entry, on its
    own. -/
def Fits (s : Nodes) : Result → MapResult → Prop
  | .flag b, .flag b' => b = b'
  | .node p, .entry none => p = none
  | .node p, .entry (some e) =>
    ∃ a t, p = some a ∧ s.heap.lookup a = some ⟨t, none⟩ ∧ (t.path, t.entry) = e
  | _, _ => False

/-- A function that agrees with one of the store whose records denote a map. -/
theorem Agrees.denotes {run : Except HeapFault (Nodes × Bool)} {res : TopicDB × Bool}
    (h : Agrees run res) {m : OrdMap CStr Entry} (hm : ∃ hdb, TopicDB.toMap res.1 hdb = m)
    {b : Bool} (hb : res.2 = b) :
    ∃ s' o, (run.map fun (s, b) => (s, Result.flag b)) = .ok (s', o) ∧ s'.Denotes m ∧
      s'.Fits o (.flag b) := by
  obtain ⟨s', rfl, hrep⟩ := h
  exact ⟨s', _, rfl, ⟨_, hrep, hm⟩, hb⟩

/-- One operation. -/
theorem step_refines (malloc : Malloc) (s : Nodes) (m : OrdMap CStr Entry) (op : StoreOp)
    (h : s.Denotes m) :
    ∃ s' o, step malloc s op = .ok (s', o) ∧ s'.Denotes (mapStep m op).1 ∧
      s'.Fits o (mapStep m op).2 := by
  obtain ⟨db, hrep, hdb, rfl⟩ := h
  -- each call of the nodes agrees with the store, which denotes the map
  cases op with
  | addTopicWEC path hpath topicMa =>
    obtain ⟨hflag, hmap⟩ := TopicDB.addTopicWEC_toMap hdb hpath topicMa
    have hres : (mapStep (db.toMap hdb) (.addTopicWEC path hpath topicMa)).2 = .flag true := by
      rw [mapStep]
      split <;> rfl
    rw [hres]
    exact (addTopicWEC_agrees malloc hrep path path.length topicMa).denotes hmap hflag
  | updateTopicInfo path topicMa =>
    exact (updateTopicInfo_agrees hrep path topicMa).denotes
      (TopicDB.updateTopicInfo_toMap hdb topicMa)
      ((TopicDB.updateTopicInfo_snd topicMa).trans (TopicDB.isSome_get_toMap hdb).symm)
  | updateTopicData path dataMa data dataSize =>
    exact (updateTopicData_agrees hrep path dataMa data dataSize).denotes
      (TopicDB.updateTopicData_toMap hdb dataMa data dataSize)
      ((TopicDB.updateTopicData_snd dataMa data dataSize).trans
        (TopicDB.isSome_get_toMap hdb).symm)
  | deleteTopicData path =>
    exact (deleteTopicData_agrees hrep path).denotes (TopicDB.deleteTopicData_toMap hdb)
      (TopicDB.deleteTopicData_snd.trans (TopicDB.isSome_get_toMap hdb).symm)
  | deleteTopic path =>
    exact (deleteTopic_agrees hrep path).denotes (TopicDB.deleteTopic_toMap hdb)
      (TopicDB.deleteTopic_snd.trans (TopicDB.isSome_get_toMap hdb).symm)
  | cloneTopic path =>
    obtain ⟨s', p, hclone, hrep', hp⟩ := cloneTopic_agrees malloc hrep path
    refine ⟨s', .node p, ?_, ⟨db, hrep', hdb, rfl⟩, ?_⟩
    · rw [step, hclone]
      rfl
    · rw [mapStep, TopicDB.get_toMap, TopicDB.getTopic, ← TopicDB.cloneTopic]
      rcases hfind : db.cloneTopic path with _ | t <;> rw [hfind] at hp
      · exact hp
      · obtain ⟨a, ha, hlookup⟩ := hp
        exact ⟨a, t, ha, hlookup, by rw [Keyed.key_of_find hfind]⟩

end Nodes

/-- Every sequence of operations goes through on the nodes, whatever addresses allocation
    gives; the records have distinct paths and denote the map, in order, and the results are
    those of the map. -/
theorem nodes_refine_map (malloc : Malloc) (ops : List StoreOp) :
    ∃ tr s, execTrace (Nodes.step malloc) Nodes.empty ops = .ok (tr, s) ∧
      s.Denotes (specRun mapStep OrdMap.empty ops).1 ∧
      List.Forall₂ (fun x r => Nodes.Fits x.dst x.out r) tr
        (specRun mapStep OrdMap.empty ops).2 := by
  refine execTrace_simulates (R := Nodes.Denotes) (A := Nodes.Fits)
    (fun s m op h => Nodes.step_refines malloc s m op h) ?_ ops
  exact ⟨[], ⟨[], .nil, rfl⟩, List.nodup_nil, OrdMap.ext rfl rfl⟩

end CoapBroker
