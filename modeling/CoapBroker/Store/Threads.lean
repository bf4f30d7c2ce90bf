import CoapBroker.Lib.PtrList
import CoapBroker.Libcoap.Resource
import CoapBroker.Store.TopicDB

/-!
# The topic store under two threads

The functions of `LinkedListDB.c` that two threads run on one list: `addTopicWEC`,
`updateTopicInfo`, `updateTopicData` and `deleteTopicData` (`Call`), step by step. A section from
taking a lock of a node to releasing it is one step (`step`), and so is every read of a field
outside of the sections, in the order they are written.

Data is a string on the heap here, which a thread may hold a pointer to (`Str`). Its address is
never given to another string, and accessing a freed string is a fault. The node an
`addTopic` makes is its own until it is linked, so it is allocated by that step.
-/

namespace CoapBroker

namespace Threads

open PtrList

/-! ## Memory -/

/-- A pointer to a string, and the string. -/
structure Str where
  addr : ℕ
  text : CStr
  deriving DecidableEq

/-- A node, apart from its locks. -/
structure Node where
  path : CStr
  data : Option Str
  topicMa : ℤ
  dataMa : ℤ
  deriving DecidableEq

/-- What a node holds. -/
def Node.record (x : Node) : TopicData where
  path := x.path
  data := x.data.map Str.text
  topicMa := x.topicMa
  dataMa := x.dataMa

/-- What the threads share. -/
structure Memory where
  heap : Heap Node
  /-- The pointer to the first node. -/
  sPtr : Ptr
  /-- The strings that have been freed. -/
  freed : Finset ℕ
  /-- The address of the next string. -/
  brk : ℕ

/-- Accessing a node. -/
def Memory.load (mem : Memory) (a : ℕ) : Except Fault (Cell Node) :=
  match mem.heap.lookup a with
  | some c => .ok c
  | none => .error .useAfterFree

/-- `free`, of a string or of `NULL`. -/
def Memory.free (mem : Memory) : Option Str → Except Fault Memory
  | none => .ok mem
  | some s => if s.addr ∈ mem.freed then .error .doubleFree
    else .ok { mem with freed := insert s.addr mem.freed }

/-- Writing the fields of a node. -/
def Memory.store (mem : Memory) (a : ℕ) (c : Cell Node) (val : Node) : Memory :=
  { mem with heap := mem.heap.insert a { c with val } }

/-! ## Threads -/

/-- A call, the size of a path being its `strlen`. -/
inductive Call
  | addTopicWEC (path : CStr) (topicMa : ℤ)
  | updateTopicInfo (path : CStr) (topicMa : ℤ)
  | updateTopicData (path : CStr) (dataMa : ℤ) (data : Option (List Byte)) (dataSize : ℕ)
  | deleteTopicData (path : CStr)

/-- The data handed to `setTopic`. -/
inductive Data
  /-- The data of a node. -/
  | ptr (data : Option Str)
  /-- A buffer of the caller. -/
  | buf (data : Option (List Byte))

/-- The bytes at it, `none` for `NULL`. -/
def Data.read (mem : Memory) : Data → Except Fault (Option (List Byte))
  | .ptr none => .ok none
  | .ptr (some s) => if s.addr ∈ mem.freed then .error .useAfterFree else .ok (some s.text.bytes)
  | .buf data => .ok data

/-- What `setTopic` copies: nothing without data, or when its size is `0`. -/
def Data.source (mem : Memory) (data : Data) (dataSize : ℕ) : Except Fault (Option (List Byte)) :=
  if 0 < dataSize then data.read mem else .ok none

/-- What `getTopic` is called for, with the arguments of the caller. -/
inductive Caller
  | addTopicWEC (path : CStr) (topicMa : ℤ)
  | updateTopicInfo (path : CStr) (topicMa : ℤ)
  | updateTopicData (path : CStr) (dataMa : ℤ) (data : Option (List Byte)) (dataSize : ℕ)
  | setTopic (path : CStr) (data : Data) (dataSize : ℕ) (topicMa dataMa : ℤ)
  | deleteTopicData (path : CStr)

/-- The path it looks for. -/
def Caller.path : Caller → CStr
  | .addTopicWEC path _ | .updateTopicInfo path _ | .updateTopicData path _ _ _
  | .setTopic path _ _ _ _ | .deleteTopicData path => path

/-- What a thread does next. -/
inductive Thread
  /-- `getTopic`: testing `DBEmpty(*sPtr)`. -/
  | getTopic (caller : Caller)
  /-- `getTopic`: the section of the first node. -/
  | getFirst (caller : Caller)
  /-- `getTopic`: the section of a node in the loop. -/
  | getNext (caller : Caller) (currentPtr : ℕ)
  /-- `updateTopicInfo`: testing `temp->data`. -/
  | infoTest (path : CStr) (topicMa : ℤ) (temp : ℕ)
  /-- `updateTopicInfo`: the length of `temp->data`. -/
  | infoLength (path : CStr) (topicMa : ℤ) (temp : ℕ)
  /-- `updateTopicInfo`: the argument `temp->data`. -/
  | infoData (path : CStr) (topicMa : ℤ) (temp : ℕ) (dataSize : ℕ)
  /-- `updateTopicInfo`: the argument `temp->data_ma`. -/
  | infoMa (path : CStr) (topicMa : ℤ) (temp : ℕ) (dataSize : ℕ) (data : Option Str)
  /-- `updateTopicData`: the argument `temp->topic_ma`. -/
  | dataMa (path : CStr) (dataMa : ℤ) (data : Option (List Byte)) (dataSize : ℕ) (temp : ℕ)
  /-- `setTopic`: the section of the node. -/
  | setSection (topic : ℕ) (data : Data) (dataSize : ℕ) (topicMa dataMa : ℤ)
  /-- `deleteTopicData`: the section of the node. -/
  | deleteSection (topic : ℕ)
  /-- `addTopic`: reading `*sPtr`. -/
  | addFirst (path : CStr) (topicMa : ℤ)
  /-- `addTopic`: the section of a node in the loop. -/
  | addNext (path : CStr) (topicMa : ℤ) (currentPtr : ℕ)
  /-- `addTopic`: the section of the last node, to link the new one. -/
  | addSection (path : CStr) (topicMa : ℤ) (previousPtr : ℕ)
  /-- `addTopic`: reading `*sPtr` for the new node. -/
  | addHeadNext (path : CStr) (topicMa : ℤ)
  /-- `addTopic`: writing `*sPtr`. -/
  | addHead (path : CStr) (topicMa : ℤ) (nextPtr : Ptr)
  /-- The call has returned. -/
  | done (result : Bool)

/-- The call has returned. -/
def Thread.Done (t : Thread) : Prop := ∃ result, t = .done result

/-- A call begins. -/
def Call.start : Call → Thread
  | .addTopicWEC path topicMa => .getTopic (.addTopicWEC path topicMa)
  | .updateTopicInfo path topicMa => .getTopic (.updateTopicInfo path topicMa)
  | .updateTopicData path dataMa data dataSize =>
    .getTopic (.updateTopicData path dataMa data dataSize)
  | .deleteTopicData path => .getTopic (.deleteTopicData path)

/-- The caller has the result of `getTopic`. -/
def Caller.returned : Caller → Ptr → Thread
  | .addTopicWEC path topicMa, some _ => .getTopic (.updateTopicInfo path topicMa)
  | .addTopicWEC path topicMa, none =>
    if 0 < path.length then .addFirst path topicMa else .done false
  | .updateTopicInfo path topicMa, some temp => .infoTest path topicMa temp
  | .updateTopicData path dataMa data dataSize, some temp =>
    .dataMa path dataMa data dataSize temp
  | .setTopic _ data dataSize topicMa dataMa, some topic =>
    .setSection topic data dataSize topicMa dataMa
  | .deleteTopicData _, some topic => .deleteSection topic
  | _, none => .done false

/-- The section of a node in `getTopic`: whether it has the path, and else the next one. -/
def getSection (mem : Memory) (caller : Caller) (a : ℕ) : Except Fault Thread := do
  let c ← mem.load a
  if compareString (some c.val.path) (some caller.path) then .ok (caller.returned (some a))
  else
    match c.nextPtr with
    | some b => .ok (.getNext caller b)
    | none => .ok (caller.returned none)

/-- The section of `setTopic`: copying the data, freeing what it replaces, and writing all
    fields. Without data, the old one is not freed. -/
def setTopicSection (mem : Memory) (topic : ℕ) (data : Data) (dataSize : ℕ)
    (topicMa dataMa : ℤ) : Except Fault Memory := do
  let c ← mem.load topic
  match ← data.source mem dataSize with
  | some bytes => do
    let mem ← mem.free c.val.data
    let tempData : Str := { addr := mem.brk, text := CStr.read (bytes.take dataSize) }
    .ok ({ mem with brk := mem.brk + 1 }.store topic c
      { c.val with data := some tempData, topicMa, dataMa })
  | none => .ok (mem.store topic c { c.val with data := none, topicMa, dataMa })

/-- The section of `deleteTopicData`. -/
def deleteTopicDataSection (mem : Memory) (topic : ℕ) : Except Fault Memory := do
  let c ← mem.load topic
  let mem ← mem.free c.val.data
  .ok (mem.store topic c { c.val with data := none, dataMa := 0 })

/-- The node `addTopic` makes. -/
def newNode (path : CStr) (topicMa : ℤ) : Node where
  path := path
  data := none
  topicMa := topicMa
  dataMa := 0

variable (m : Malloc)

/-- A thread takes a step. -/
def step (mem : Memory) : Thread → Except Fault (Memory × Thread)
  | .getTopic caller =>
    match mem.sPtr with
    | none => .ok (mem, caller.returned none)
    | some _ => .ok (mem, .getFirst caller)
  | .getFirst caller =>
    match mem.sPtr with
    | none => .error .nullDeref
    | some a => do
      let t ← getSection mem caller a
      .ok (mem, t)
  | .getNext caller currentPtr => do
    let t ← getSection mem caller currentPtr
    .ok (mem, t)
  | .infoTest path topicMa temp => do
    let c ← mem.load temp
    match c.val.data with
    | none => .ok (mem, .infoData path topicMa temp 0)
    | some _ => .ok (mem, .infoLength path topicMa temp)
  | .infoLength path topicMa temp => do
    let c ← mem.load temp
    match c.val.data with
    | none => .error .nullDeref
    | some s =>
      if s.addr ∈ mem.freed then .error .useAfterFree
      else .ok (mem, .infoData path topicMa temp s.text.length)
  | .infoData path topicMa temp dataSize => do
    let c ← mem.load temp
    .ok (mem, .infoMa path topicMa temp dataSize c.val.data)
  | .infoMa path topicMa temp dataSize data => do
    let c ← mem.load temp
    .ok (mem, .getTopic (.setTopic path (.ptr data) dataSize topicMa c.val.dataMa))
  | .dataMa path dataMa data dataSize temp => do
    let c ← mem.load temp
    .ok (mem, .getTopic (.setTopic path (.buf data) dataSize c.val.topicMa dataMa))
  | .setSection topic data dataSize topicMa dataMa => do
    let mem ← setTopicSection mem topic data dataSize topicMa dataMa
    .ok (mem, .done true)
  | .deleteSection topic => do
    let mem ← deleteTopicDataSection mem topic
    .ok (mem, .done true)
  | .addFirst path topicMa =>
    match mem.sPtr with
    | none => .ok (mem, .addHeadNext path topicMa)
    | some a => .ok (mem, .addNext path topicMa a)
  | .addNext path topicMa currentPtr => do
    let c ← mem.load currentPtr
    match c.nextPtr with
    | some b => .ok (mem, .addNext path topicMa b)
    | none => .ok (mem, .addSection path topicMa currentPtr)
  | .addSection path topicMa previousPtr => do
    let newPtr := m.ptr mem.heap.keys
    let previous ← mem.load previousPtr
    let heap := mem.heap.insert newPtr ⟨newNode path topicMa, none⟩
    .ok ({ mem with heap := heap.insert previousPtr { previous with nextPtr := some newPtr } },
      .done true)
  | .addHeadNext path topicMa => .ok (mem, .addHead path topicMa mem.sPtr)
  | .addHead path topicMa nextPtr =>
    let newPtr := m.ptr mem.heap.keys
    .ok ({ mem with
      heap := mem.heap.insert newPtr ⟨newNode path topicMa, nextPtr⟩, sPtr := some newPtr },
      .done true)
  | .done result => .ok (mem, .done result)

/-! ## The calls one after the other -/

/-- What a call does to the list when no other is running. -/
def Call.run (db : TopicDB) : Call → TopicDB
  | .addTopicWEC path topicMa => (db.addTopicWEC path path.length topicMa).1
  | .updateTopicInfo path topicMa => (db.updateTopicInfo path topicMa).1
  | .updateTopicData path dataMa data dataSize =>
    (db.updateTopicData path dataMa data dataSize).1
  | .deleteTopicData path => (db.deleteTopicData path).1

/-- The path of a call. -/
def Call.path : Call → CStr
  | .addTopicWEC path _ | .updateTopicInfo path _ | .updateTopicData path _ _ _
  | .deleteTopicData path => path

/-- What a call makes of the record with its path. -/
def Call.apply : Call → TopicData → TopicData
  | .addTopicWEC _ topicMa, t | .updateTopicInfo _ topicMa, t =>
    { t with data := TopicDB.normData t.data, topicMa }
  | .updateTopicData _ dataMa data dataSize, t => { t with data := copyData data dataSize, dataMa }
  | .deleteTopicData _, t => { t with data := none, dataMa := 0 }

@[simp] theorem Call.path_apply (c : Call) (t : TopicData) : (c.apply t).path = t.path := by
  cases c <;> rfl

/-- The call adds a record. -/
def Call.Inserts (db : TopicDB) (c : Call) : Prop :=
  ∃ path topicMa, c = .addTopicWEC path topicMa ∧ 0 < path.length ∧ db.getTopic path = none

/-- On a path that is there, a call changes the first record with it. -/
theorem Call.run_of_some {db : TopicDB} {c : Call} {t : TopicData}
    (h : db.getTopic c.path = some t) :
    c.run db = Keyed.modify TopicData.path c.path c.apply db := by
  cases c with
  | addTopicWEC path topicMa =>
    have hmem : path ∈ db.paths := TopicDB.mem_paths_of_getTopic h
    exact (congrArg Prod.fst (TopicDB.addTopicWEC_of_mem hmem _ topicMa)).trans
      (TopicDB.updateTopicInfo_fst topicMa)
  | updateTopicInfo path topicMa => exact TopicDB.updateTopicInfo_fst topicMa
  | updateTopicData path dataMa data dataSize =>
    exact TopicDB.updateTopicData_fst dataMa data dataSize
  | deleteTopicData path => exact TopicDB.deleteTopicData_fst

/-- The record, among the others. -/
theorem Call.run_append_cons {db₁ db₂ : TopicDB} {c : Call} {t : TopicData}
    (hdb : c.path ∉ TopicDB.paths db₁) (ht : t.path = c.path) :
    c.run (db₁ ++ t :: db₂) = db₁ ++ c.apply t :: db₂ := by
  have hfind : (db₁ ++ t :: db₂).getTopic c.path = some t := Keyed.find_append_cons hdb ht
  rw [run_of_some hfind, Keyed.modify_append_cons hdb ht]

/-- On one that is not there, `addTopicWEC` adds a record. -/
theorem Call.run_of_inserts {db : TopicDB} {path : CStr} {topicMa : ℤ} (h : db.getTopic path = none)
    (hlen : 0 < path.length) :
    (Call.addTopicWEC path topicMa).run db = db ++ [(newNode path topicMa).record] :=
  congrArg Prod.fst (TopicDB.addTopicWEC_of_notMem (TopicDB.getTopic_eq_none.1 h) hlen topicMa)

/-- Otherwise nothing happens. -/
theorem Call.run_of_none {db : TopicDB} {c : Call} (h : db.getTopic c.path = none)
    (hc : ¬c.Inserts db) : c.run db = db := by
  cases c with
  | addTopicWEC path topicMa =>
    have hlen : ¬0 < path.length := fun hlen => hc ⟨path, topicMa, rfl, hlen, h⟩
    have h' : db.getTopic path = none := h
    rw [run, TopicDB.addTopicWEC, h']
    simp only [TopicDB.addTopic, if_neg hlen]
  | updateTopicInfo path topicMa =>
    exact (TopicDB.updateTopicInfo_fst topicMa).trans
      (Keyed.modify_of_notMem (TopicDB.getTopic_eq_none.1 h))
  | updateTopicData path dataMa data dataSize =>
    exact (TopicDB.updateTopicData_fst dataMa data dataSize).trans
      (Keyed.modify_of_notMem (TopicDB.getTopic_eq_none.1 h))
  | deleteTopicData path =>
    exact TopicDB.deleteTopicData_fst.trans
      (Keyed.modify_of_notMem (TopicDB.getTopic_eq_none.1 h))

end Threads

end CoapBroker
