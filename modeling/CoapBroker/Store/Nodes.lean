import CoapBroker.Lib.PtrList
import CoapBroker.Store.TopicDB

/-!
# The nodes of the topic store

The functions of `LinkedListDB.c` on the nodes themselves: a heap, and the pointer `*sPtr` to
the first node. Every function that looks for a path tests the first node on its own and then
walks through the rest. The strings of a node are its own copies, and so are values here; the
locks, which have no effect on a single thread, are left out.

When the nodes are a list of records (`Nodes.Represents`), a function does not fail, it returns
what the one of `CoapBroker.Store.TopicDB` does, and the nodes are its list afterwards.
-/

namespace CoapBroker

open PtrList

/-- The nodes of a store. -/
structure Nodes where
  heap : Heap TopicData
  sPtr : Ptr

namespace Nodes

/-! ## The functions -/

/-- The loop that looks for a path, from `currentPtr` on. -/
def walkTo (s : Nodes) (path : Option CStr) (previousPtr currentPtr : Ptr) :
    Except HeapFault (Ptr × Ptr) :=
  walk s.heap (fun t => compareString (some t.path) path) s.heap.keys.card previousPtr currentPtr

/-- `getTopic`. -/
def getTopic (s : Nodes) (path : Option CStr) : Except HeapFault Ptr :=
  match s.sPtr with
  | none => .ok none
  | some a =>
    if path = none then .ok none
    else do
      let first ← load s.heap a
      if compareString (some first.val.path) path then .ok (some a)
      else
        let (_, currentPtr) ← s.walkTo path (some a) first.nextPtr
        .ok currentPtr

/-- `cloneTopic`: looking for the path as `getTopic` does, and copying the node. -/
def cloneTopic (m : Malloc) (s : Nodes) (path : Option CStr) : Except HeapFault (Nodes × Ptr) := do
  match ← s.getTopic path with
  | none => .ok (s, none)
  | some a => do
    let temp ← load s.heap a
    let newPtr := m.ptr s.heap.keys
    .ok ({ s with heap := s.heap.insert newPtr ⟨temp.val, none⟩ }, some newPtr)

/-- `setTopic`. -/
def setTopic (s : Nodes) (path : Option CStr) (data : Option (List Byte)) (dataSize : ℕ)
    (topicMa dataMa : ℤ) : Except HeapFault (Nodes × Bool) := do
  match ← s.getTopic path with
  | none => .ok (s, false)
  | some a => do
    let topic ← load s.heap a
    let val := { topic.val with data := copyData data dataSize, topicMa, dataMa }
    .ok ({ s with heap := s.heap.insert a { topic with val } }, true)

/-- `addTopic`: the new node is linked to the last one, or becomes the first. -/
def addTopic (m : Malloc) (s : Nodes) (path : Option CStr) (pathSize : ℕ) (topicMa : ℤ) :
    Except HeapFault (Nodes × Bool) :=
  match path with
  | none => .ok (s, false)
  | some path =>
    if pathSize > 0 then do
      let newPtr := m.ptr s.heap.keys
      let val : TopicData :=
        { path := CStr.read (path.bytes.take pathSize), data := none, topicMa, dataMa := 0 }
      let (previousPtr, currentPtr) ← walk s.heap (fun _ => false) s.heap.keys.card none s.sPtr
      let heap := s.heap.insert newPtr ⟨val, currentPtr⟩
      match previousPtr with
      | none => .ok ({ heap, sPtr := some newPtr }, true)
      | some b => do
        let previous ← load heap b
        .ok ({ s with heap := heap.insert b { previous with nextPtr := some newPtr } }, true)
    else .ok (s, false)

/-- `updateTopicInfo`. -/
def updateTopicInfo (s : Nodes) (path : Option CStr) (topicMa : ℤ) :
    Except HeapFault (Nodes × Bool) := do
  match ← s.getTopic path with
  | none => .ok (s, false)
  | some a => do
    let temp ← load s.heap a
    let dataSize := match temp.val.data with
      | none => 0
      | some d => d.length
    s.setTopic path (temp.val.data.map CStr.bytes) dataSize topicMa temp.val.dataMa

/-- `updateTopicData`. -/
def updateTopicData (s : Nodes) (path : Option CStr) (dataMa : ℤ) (data : Option (List Byte))
    (dataSize : ℕ) : Except HeapFault (Nodes × Bool) := do
  match ← s.getTopic path with
  | none => .ok (s, false)
  | some a => do
    let temp ← load s.heap a
    s.setTopic path data dataSize temp.val.topicMa dataMa

/-- `addTopicWEC`. -/
def addTopicWEC (m : Malloc) (s : Nodes) (path : Option CStr) (pathSize : ℕ) (topicMa : ℤ) :
    Except HeapFault (Nodes × Bool) := do
  match ← s.getTopic path with
  | some _ => s.updateTopicInfo path topicMa
  | none => s.addTopic m path pathSize topicMa

/-- `deleteTopic`: the first node is unthreaded on its own. -/
def deleteTopic (s : Nodes) (path : Option CStr) : Except HeapFault (Nodes × Bool) :=
  match s.sPtr with
  | none => .ok (s, false)
  | some a =>
    if path = none then .ok (s, false)
    else do
      let first ← load s.heap a
      if compareString (some first.val.path) path then
        .ok ({ heap := s.heap.erase a, sPtr := first.nextPtr }, true)
      else
        match ← s.walkTo path (some a) first.nextPtr with
        | (some b, some c) => do
          let current ← load s.heap c
          let previous ← load s.heap b
          .ok ({ s with
            heap := (s.heap.insert b { previous with nextPtr := current.nextPtr }).erase c }, true)
        -- the pointer to the previous node is never `NULL`
        | (none, some _) => .error .dangling
        | (_, none) => .ok (s, false)

/-- `deleteTopicData`. -/
def deleteTopicData (s : Nodes) (path : Option CStr) : Except HeapFault (Nodes × Bool) := do
  match ← s.getTopic path with
  | none => .ok (s, false)
  | some a => do
    let topic ← load s.heap a
    let val := { topic.val with data := none, dataMa := 0 }
    .ok ({ s with heap := s.heap.insert a { topic with val } }, true)

/-! ## Looking for a path -/

/-- The nodes are a list of records. -/
def Represents (s : Nodes) (db : TopicDB) : Prop :=
  ∃ l, Segment s.heap s.sPtr l none ∧ l.map Prod.snd = db

/-- The nodes are a list, with the first node that has the path. -/
abbrev At (s : Nodes) (l₁ : List (ℕ × TopicData)) (a : ℕ) (t : TopicData)
    (l₂ : List (ℕ × TopicData)) (path : CStr) : Prop :=
  FirstAt s.heap s.sPtr TopicData.path path l₁ a t l₂

variable {s : Nodes} {db : TopicDB} {path : CStr}

/-- The loop is at the end when no node has the path. -/
theorem walkTo_end {p prev : Ptr} {l : List (ℕ × TopicData)} (hs : Segment s.heap p l none)
    (hl : ∀ c ∈ l, c.2.path ≠ path) (hlen : l.length ≤ s.heap.keys.card) :
    s.walkTo (some path) prev p = .ok (lastPtr prev l, none) :=
  walk_end hs (fun c hc => decide_eq_false (hl c hc)) hlen

/-- The loop stops at the first node with the path. -/
theorem walkTo_found {p prev : Ptr} {l₁ l₂ : List (ℕ × TopicData)} {a : ℕ} {t : TopicData}
    (hs : Segment s.heap p (l₁ ++ (a, t) :: l₂) none) (hl₁ : ∀ c ∈ l₁, c.2.path ≠ path)
    (ht : t.path = path) (hlen : l₁.length < s.heap.keys.card) :
    s.walkTo (some path) prev p = .ok (lastPtr prev l₁, some a) :=
  walk_found hs (fun c hc => decide_eq_false (hl₁ c hc)) (decide_eq_true ht) hlen

/-- A path is there or is not. -/
theorem represents_cases (h : s.Represents db) (path : CStr) :
    (∃ l₁ a t l₂, At s l₁ a t l₂ path ∧ db = l₁.map Prod.snd ++ t :: l₂.map Prod.snd) ∨
    ∃ l, Segment s.heap s.sPtr l none ∧ l.map Prod.snd = db ∧ ∀ c ∈ l, c.2.path ≠ path := by
  obtain ⟨l, hs, rfl⟩ := h
  rcases exists_firstAt hs TopicData.path path with ⟨l₁, a, t, l₂, hat, rfl⟩ | hno
  · exact .inl ⟨l₁, a, t, l₂, hat, List.map_append⟩
  · exact .inr ⟨l, hs, rfl, hno⟩

/-- No node has the path `NULL`. -/
theorem getTopic_null (s : Nodes) : s.getTopic none = .ok none := by
  rw [getTopic]
  cases s.sPtr <;> rfl

theorem deleteTopic_null (s : Nodes) : s.deleteTopic none = .ok (s, false) := by
  rw [deleteTopic]
  cases s.sPtr <;> rfl

theorem getTopic_of_notMem {l : List (ℕ × TopicData)} (hs : Segment s.heap s.sPtr l none)
    (hl : ∀ c ∈ l, c.2.path ≠ path) : s.getTopic (some path) = .ok none := by
  rcases l with _ | ⟨⟨a, t⟩, l⟩
  · rw [getTopic, segment_nil_iff.1 hs]
  · obtain ⟨hp, c, hc, rfl, hs'⟩ := segment_cons_iff.1 hs
    rw [List.forall_mem_cons] at hl
    have hlen : l.length ≤ s.heap.keys.card := Nat.le_of_succ_le hs.length_le
    have hfirst : compareString (some c.val.path) (some path) = false := decide_eq_false hl.1
    rw [getTopic, hp]
    simp only [bind, Except.bind, load_of_lookup hc, hfirst, walkTo_end hs' hl.2 hlen]
    rfl

theorem getTopic_of_at {l₁ l₂ : List (ℕ × TopicData)} {a : ℕ} {t : TopicData}
    (h : At s l₁ a t l₂ path) : s.getTopic (some path) = .ok (some a) := by
  obtain ⟨hs, hl₁, ht⟩ := h
  rcases l₁ with _ | ⟨⟨b, y⟩, l₁⟩
  · obtain ⟨hp, c, hc, rfl, -⟩ := segment_cons_iff.1 hs
    have hfirst : compareString (some c.val.path) (some path) = true := decide_eq_true ht
    rw [getTopic, hp]
    simp only [bind, Except.bind, load_of_lookup hc, hfirst]
    rfl
  · obtain ⟨hp, c, hc, rfl, hs'⟩ := segment_cons_iff.1 hs
    rw [List.forall_mem_cons] at hl₁
    have hlen := hs.length_le
    rw [List.length_append, List.length_cons] at hlen
    have hfirst : compareString (some c.val.path) (some path) = false := decide_eq_false hl₁.1
    rw [getTopic, hp]
    simp only [bind, Except.bind, load_of_lookup hc, hfirst,
      walkTo_found hs' hl₁.2 ht (by omega : l₁.length < s.heap.keys.card)]
    rfl

/-! ## What the functions come to -/

theorem getTopic_eq_none_of_ne {l : List (ℕ × TopicData)} (hl : ∀ c ∈ l, c.2.path ≠ path) :
    TopicDB.getTopic (l.map Prod.snd) path = none :=
  TopicDB.getTopic_eq_none.2 (notMem_keys hl)

/-- A function of the store and the one on its nodes: neither fails, the results are the same,
    and the nodes are the store afterwards. -/
def Agrees (run : Except HeapFault (Nodes × Bool)) (res : TopicDB × Bool) : Prop :=
  ∃ s, run = .ok (s, res.2) ∧ s.Represents res.1

theorem exists_getTopic (h : s.Represents db) (path : Option CStr) :
    ∃ p, s.getTopic path = .ok p := by
  rcases path with _ | path
  · exact ⟨none, getTopic_null s⟩
  · rcases represents_cases h path with ⟨l₁, a, t, l₂, hat, -⟩ | ⟨l, hs, -, hl⟩
    · exact ⟨some a, getTopic_of_at hat⟩
    · exact ⟨none, getTopic_of_notMem hs hl⟩

theorem setTopic_agrees (h : s.Represents db) (path : CStr) (data : Option (List Byte)) (n : ℕ)
    (topicMa dataMa : ℤ) :
    Agrees (s.setTopic (some path) data n topicMa dataMa)
      (db.setTopic path data n topicMa dataMa) := by
  rcases represents_cases h path with ⟨l₁, a, t, l₂, hat, rfl⟩ | ⟨l, hs, rfl, hl⟩
  · obtain ⟨c, hc, rfl⟩ := hat.exists_cell
    rw [TopicDB.setTopic, TopicDB.getTopic, hat.find, setTopic, getTopic_of_at hat]
    simp only [bind, Except.bind, load_of_lookup hc]
    exact ⟨_, rfl, _, hat.store hc fun t => { t with data := copyData data n, topicMa, dataMa }⟩
  · rw [TopicDB.setTopic, getTopic_eq_none_of_ne hl, setTopic, getTopic_of_notMem hs hl]
    exact ⟨s, rfl, h⟩

theorem deleteTopicData_of_at {l₁ l₂ : List (ℕ × TopicData)} {a : ℕ} {t : TopicData}
    (h : At s l₁ a t l₂ path) : ∃ s', s.deleteTopicData (some path) = .ok (s', true) ∧
      Segment s'.heap s'.sPtr (l₁ ++ (a, { t with data := none, dataMa := 0 }) :: l₂) none := by
  obtain ⟨c, hc, rfl⟩ := h.exists_cell
  rw [deleteTopicData, getTopic_of_at h]
  simp only [bind, Except.bind, load_of_lookup hc]
  exact ⟨_, rfl, h.segment.store hc _⟩

theorem deleteTopicData_agrees (h : s.Represents db) (path : CStr) :
    Agrees (s.deleteTopicData (some path)) (db.deleteTopicData path) := by
  rcases represents_cases h path with ⟨l₁, a, t, l₂, hat, rfl⟩ | ⟨l, hs, rfl, hl⟩
  · obtain ⟨s', hrun, hs'⟩ := deleteTopicData_of_at hat
    rw [TopicDB.deleteTopicData, TopicDB.getTopic, hat.find,
      Keyed.modify_append_cons (notMem_keys hat.ne) hat.key_eq]
    exact ⟨s', hrun, _, hs', List.map_append⟩
  · rw [TopicDB.deleteTopicData, getTopic_eq_none_of_ne hl, deleteTopicData,
      getTopic_of_notMem hs hl]
    exact ⟨s, rfl, h⟩

theorem updateTopicInfo_agrees (h : s.Represents db) (path : CStr) (topicMa : ℤ) :
    Agrees (s.updateTopicInfo (some path) topicMa) (db.updateTopicInfo path topicMa) := by
  rcases represents_cases h path with ⟨l₁, a, t, l₂, hat, rfl⟩ | ⟨l, hs, rfl, hl⟩
  · obtain ⟨c, hc, rfl⟩ := hat.exists_cell
    rw [TopicDB.updateTopicInfo, TopicDB.getTopic, hat.find, updateTopicInfo, getTopic_of_at hat]
    simp only [bind, Except.bind, load_of_lookup hc]
    exact setTopic_agrees h path _ _ _ _
  · rw [TopicDB.updateTopicInfo, getTopic_eq_none_of_ne hl, updateTopicInfo,
      getTopic_of_notMem hs hl]
    exact ⟨s, rfl, h⟩

theorem updateTopicData_agrees (h : s.Represents db) (path : CStr) (dataMa : ℤ)
    (data : Option (List Byte)) (n : ℕ) :
    Agrees (s.updateTopicData (some path) dataMa data n)
      (db.updateTopicData path dataMa data n) := by
  rcases represents_cases h path with ⟨l₁, a, t, l₂, hat, rfl⟩ | ⟨l, hs, rfl, hl⟩
  · obtain ⟨c, hc, rfl⟩ := hat.exists_cell
    rw [TopicDB.updateTopicData, TopicDB.getTopic, hat.find, updateTopicData, getTopic_of_at hat]
    simp only [bind, Except.bind, load_of_lookup hc]
    exact setTopic_agrees h path _ _ _ _
  · rw [TopicDB.updateTopicData, getTopic_eq_none_of_ne hl, updateTopicData,
      getTopic_of_notMem hs hl]
    exact ⟨s, rfl, h⟩

/-- The new node is the last one. -/
theorem addTopic_agrees (m : Malloc) (h : s.Represents db) (path : CStr) (n : ℕ) (topicMa : ℤ) :
    Agrees (s.addTopic m (some path) n topicMa) (db.addTopic path n topicMa) := by
  obtain ⟨l, hs, rfl⟩ := h
  rw [addTopic, TopicDB.addTopic]
  split_ifs with hn
  · have hwalk : walk s.heap (fun _ => false) s.heap.keys.card none s.sPtr =
        .ok (lastPtr none l, none) := walk_end hs (fun _ _ => rfl) hs.length_le
    have hfresh := m.lookup_ptr s.heap
    simp only [bind, Except.bind, hwalk]
    rcases List.eq_nil_or_concat' l with rfl | ⟨l, ⟨b, y⟩, rfl⟩
    · refine ⟨_, rfl, _, .cons (Finmap.lookup_insert s.heap) .nil, rfl⟩
    · obtain ⟨cb, hb, -⟩ := hs.split
      have hne : b ≠ m.ptr s.heap.keys := fun heq => by rw [← heq, hb] at hfresh; cases hfresh
      rw [lastPtr_concat]
      simp only [load_of_lookup ((Finmap.lookup_insert_of_ne s.heap hne).trans hb)]
      refine ⟨_, rfl, _, hs.link hfresh hb _, ?_⟩
      simp only [List.map_append, List.map_cons, List.map_nil, List.append_assoc,
        List.cons_append, List.nil_append]
  · exact ⟨s, rfl, l, hs, rfl⟩

theorem addTopicWEC_agrees (m : Malloc) (h : s.Represents db) (path : CStr) (n : ℕ)
    (topicMa : ℤ) :
    Agrees (s.addTopicWEC m (some path) n topicMa) (db.addTopicWEC path n topicMa) := by
  rcases represents_cases h path with ⟨l₁, a, t, l₂, hat, rfl⟩ | ⟨l, hs, rfl, hl⟩
  · rw [TopicDB.addTopicWEC, TopicDB.getTopic, hat.find, addTopicWEC, getTopic_of_at hat]
    exact updateTopicInfo_agrees h path topicMa
  · rw [TopicDB.addTopicWEC, getTopic_eq_none_of_ne hl, addTopicWEC, getTopic_of_notMem hs hl]
    exact addTopic_agrees m h path n topicMa

/-- The node with the path is taken out, wherever it is. -/
theorem deleteTopic_of_at {l₁ l₂ : List (ℕ × TopicData)} {a : ℕ} {t : TopicData}
    (h : At s l₁ a t l₂ path) : ∃ s', s.deleteTopic (some path) = .ok (s', true) ∧
      Segment s'.heap s'.sPtr (l₁ ++ l₂) none := by
  obtain ⟨hs, hl₁, ht⟩ := h
  rcases l₁ with _ | ⟨⟨b, y⟩, l₁⟩
  · -- the first node
    obtain ⟨hp, c, hc, rfl, -⟩ := segment_cons_iff.1 hs
    have hfirst : compareString (some c.val.path) (some path) = true := decide_eq_true ht
    rw [deleteTopic, hp]
    simp only [bind, Except.bind, load_of_lookup hc, hfirst]
    exact ⟨_, rfl, (hp ▸ hs).unlink_head hc⟩
  · -- the loop stops at the node, and its previous node is the last one before it
    obtain ⟨hp, c, hc, rfl, hs'⟩ := segment_cons_iff.1 hs
    rw [List.forall_mem_cons] at hl₁
    have hlen := hs.length_le
    rw [List.length_append, List.length_cons] at hlen
    have hfirst : compareString (some c.val.path) (some path) = false := decide_eq_false hl₁.1
    obtain ⟨ca, hca, -⟩ := hs.split
    obtain ⟨l, ⟨b', y'⟩, hlast⟩ : ∃ l x, (b, c.val) :: l₁ = l ++ [x] :=
      ⟨_, _, (List.dropLast_append_getLast (List.cons_ne_nil _ _)).symm⟩
    have hprev : lastPtr (some b) l₁ = some b' := by
      have := lastPtr_concat none l b' y'
      rwa [← hlast] at this
    rw [hlast, List.append_assoc, List.singleton_append] at hs
    obtain ⟨cb, hcb, -⟩ := hs.split
    rw [deleteTopic, hp]
    simp only [bind, Except.bind, load_of_lookup hc, hfirst,
      walkTo_found hs' hl₁.2 ht (by omega : l₁.length < s.heap.keys.card), hprev,
      load_of_lookup hca, load_of_lookup hcb]
    have hunlink := hs.unlink hcb hca
    rw [hp] at hunlink
    refine ⟨_, rfl, ?_⟩
    rw [hlast, List.append_assoc]
    exact hunlink

theorem deleteTopic_agrees (h : s.Represents db) (path : CStr) :
    Agrees (s.deleteTopic (some path)) (db.deleteTopic path) := by
  rcases represents_cases h path with ⟨l₁, a, t, l₂, hat, rfl⟩ | ⟨l, hs, rfl, hl⟩
  · obtain ⟨s', hrun, hs'⟩ := deleteTopic_of_at hat
    rw [TopicDB.deleteTopic, TopicDB.getTopic, hat.find,
      Keyed.erase_append_cons (notMem_keys hat.ne) hat.key_eq]
    exact ⟨s', hrun, _, hs', List.map_append⟩
  · rw [TopicDB.deleteTopic, getTopic_eq_none_of_ne hl]
    refine ⟨s, ?_, l, hs, rfl⟩
    rcases l with _ | ⟨⟨a, t⟩, l⟩
    · rw [deleteTopic, segment_nil_iff.1 hs]
    · obtain ⟨hp, c, hc, rfl, hs'⟩ := segment_cons_iff.1 hs
      rw [List.forall_mem_cons] at hl
      have hlen : l.length ≤ s.heap.keys.card := Nat.le_of_succ_le hs.length_le
      have hfirst : compareString (some c.val.path) (some path) = false := decide_eq_false hl.1
      rw [deleteTopic, hp]
      simp only [bind, Except.bind, load_of_lookup hc, hfirst, walkTo_end hs' hl.2 hlen]
      rfl

/-- A copy of the record is on the heap, outside of the list. -/
theorem cloneTopic_agrees (m : Malloc) (h : s.Represents db) (path : CStr) :
    ∃ s' p, s.cloneTopic m (some path) = .ok (s', p) ∧ s'.Represents db ∧
      match db.cloneTopic path with
      | none => p = none
      | some t => ∃ a, p = some a ∧ s'.heap.lookup a = some ⟨t, none⟩ := by
  rcases represents_cases h path with ⟨l₁, a, t, l₂, hat, rfl⟩ | ⟨l, hs, rfl, hl⟩
  · obtain ⟨c, hc, rfl⟩ := hat.exists_cell
    have hfresh : m.ptr s.heap.keys ∉ (l₁ ++ (a, c.val) :: l₂).map Prod.fst := fun hmem =>
      m.fresh _ (hat.segment.mem_keys _ hmem)
    have hfind : TopicDB.cloneTopic (l₁.map Prod.snd ++ c.val :: l₂.map Prod.snd) path =
        some c.val := hat.find
    rw [cloneTopic, getTopic_of_at hat]
    simp only [bind, Except.bind, load_of_lookup hc]
    refine ⟨_, _, rfl, ⟨_, hat.segment.insert_of_notMem hfresh _, List.map_append⟩, ?_⟩
    rw [hfind]
    exact ⟨_, rfl, Finmap.lookup_insert _⟩
  · have hfind : TopicDB.cloneTopic (l.map Prod.snd) path = none := getTopic_eq_none_of_ne hl
    rw [cloneTopic, getTopic_of_notMem hs hl]
    refine ⟨s, none, rfl, ⟨l, hs, rfl⟩, ?_⟩
    rw [hfind]

theorem exists_cloneTopic (m : Malloc) (h : s.Represents db) (path : Option CStr) :
    ∃ n p, s.cloneTopic m path = .ok (n, p) := by
  rcases path with _ | path
  · rw [cloneTopic, getTopic_null]
    exact ⟨s, none, rfl⟩
  · obtain ⟨n, p, hres, -⟩ := cloneTopic_agrees m h path
    exact ⟨n, p, hres⟩

end Nodes

end CoapBroker
