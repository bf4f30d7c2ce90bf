import CoapBroker.Lib.RwLock
import CoapBroker.Store.Nodes

/-!
# The locks of the topic store

The functions of `LinkedListDB.c` on the nodes with their locks: a node has one for itself and
one for its data. On a single thread, the locks have no effect on what a function does. When
they are all free and the function without locks (`CoapBroker.Store.Nodes`) does not fail, it
does not fail with them either, returns the same and leaves the same nodes, with all of their
locks free (`Follows`).
-/

namespace CoapBroker

open PtrList RwLock

/-- The locks of a node. -/
inductive LockKind
  | node
  | data
  deriving DecidableEq

/-- The nodes of a store with their locks. -/
abbrev LockedNodes := Locked TopicData LockKind

/-- A function on them. -/
abbrev LockProg (β : Type) := Prog TopicData LockKind β

namespace LockedNodes

/-- The nodes. -/
def toNodes (s : LockedNodes) : Nodes where
  heap := s.heap
  sPtr := s.head

/-! ## The functions -/

/-- A new node, with its locks. -/
def newNode (m : Malloc) (val : TopicData) : LockProg ℕ := do
  let newPtr ← malloc m ⟨val, none⟩
  init newPtr .node
  init newPtr .data
  pure newPtr

/-- Freeing a node. -/
def freeNode (a : ℕ) : LockProg Unit := do
  destroy a .node
  destroy a .data
  free a

/-- Taking out the first node. -/
def deleteFirst (a : ℕ) : LockProg Unit := do
  wrlock a .node
  let temp ← load a
  setHead temp.nextPtr
  unlock a .node
  freeNode a

/-- Taking out the node after another one. -/
def deleteNext (b c : ℕ) : LockProg Unit := do
  wrlock b .node
  wrlock c .node
  let current ← load c
  let previous ← load b
  store b { previous with nextPtr := current.nextPtr }
  unlock c .node
  unlock b .node
  freeNode c

/-- Writing the fields of a node. -/
def updateNode (a : ℕ) (f : TopicData → TopicData) : LockProg Unit := do
  rdlock a .node
  wrlock a .data
  let topic ← load a
  store a { topic with val := f topic.val }
  unlock a .data
  unlock a .node

/-- Linking a new node to another one, which is locked. -/
def linkNode (b newPtr : ℕ) (val : TopicData) (currentPtr : Ptr) : LockProg Unit := do
  wrlock b .node
  let previous ← load b
  store b { previous with nextPtr := some newPtr }
  store newPtr ⟨val, currentPtr⟩
  unlock b .node

/-- Looking for a path, as `getTopic`, `cloneTopic` and `deleteTopic` begin: the node that has
    it stays locked. There is no previous node when it is the first one. -/
def search (path : Option CStr) : LockProg (Ptr × Ptr) := do
  match ← head with
  | none => pure (none, none)
  | some a =>
    if path = none then pure (none, none)
    else do
      rdlock a .node
      let first ← load a
      if compareString (some first.val.path) path then pure (none, some a)
      else do
        unlock a .node
        let n ← size
        walk .node (fun t => compareString (some t.path) path) n (some a) first.nextPtr

/-- `getTopic`. -/
def getTopic (path : Option CStr) : LockProg Ptr := do
  let (_, currentPtr) ← search path
  match currentPtr with
  | some a => do
    unlock a .node
    pure (some a)
  | none => pure none

/-- `cloneTopic`: the node is locked while it is copied. -/
def cloneTopic (m : Malloc) (path : Option CStr) : LockProg Ptr := do
  let (_, currentPtr) ← search path
  match currentPtr with
  | some a => do
    let temp ← load a
    let newPtr ← newNode m temp.val
    unlock a .node
    pure (some newPtr)
  | none => pure none

/-- `setTopic`. -/
def setTopic (path : Option CStr) (data : Option (List Byte)) (dataSize : ℕ)
    (topicMa dataMa : ℤ) : LockProg Bool := do
  match ← getTopic path with
  | some a => do
    updateNode a fun t => { t with data := copyData data dataSize, topicMa, dataMa }
    pure true
  | none => pure false

/-- `addTopic`: the last node is locked again to link the new one to it. -/
def addTopic (m : Malloc) (path : Option CStr) (pathSize : ℕ) (topicMa : ℤ) :
    LockProg Bool := do
  match path with
  | some path =>
    if pathSize > 0 then do
      let val : TopicData :=
        { path := CStr.read (path.bytes.take pathSize), data := none, topicMa, dataMa := 0 }
      let newPtr ← newNode m val
      let n ← size
      -- no node stops this loop, which ends at the last one
      let (previousPtr, currentPtr) ← walk .node (fun _ => false) n none (← head)
      match previousPtr with
      -- no lock is taken to link to the head
      | none => do
        store newPtr ⟨val, ← head⟩
        setHead (some newPtr)
        pure true
      | some b => do
        linkNode b newPtr val currentPtr
        pure true
    else pure false
  | none => pure false

/-- `updateTopicInfo`. -/
def updateTopicInfo (path : Option CStr) (topicMa : ℤ) : LockProg Bool := do
  match ← getTopic path with
  | some a => do
    let temp ← load a
    let dataSize := match temp.val.data with
      | none => 0
      | some d => d.length
    setTopic path (temp.val.data.map CStr.bytes) dataSize topicMa temp.val.dataMa
  | none => pure false

/-- `updateTopicData`. -/
def updateTopicData (path : Option CStr) (dataMa : ℤ) (data : Option (List Byte))
    (dataSize : ℕ) : LockProg Bool := do
  match ← getTopic path with
  | some a => do
    let temp ← load a
    setTopic path data dataSize temp.val.topicMa dataMa
  | none => pure false

/-- `addTopicWEC`. -/
def addTopicWEC (m : Malloc) (path : Option CStr) (pathSize : ℕ) (topicMa : ℤ) :
    LockProg Bool := do
  match ← getTopic path with
  | some _ => updateTopicInfo path topicMa
  | none => addTopic m path pathSize topicMa

/-- `deleteTopic`: the node is released before it is locked for writing, after the previous
    one. -/
def deleteTopic (path : Option CStr) : LockProg Bool := do
  match ← search path with
  -- the first node
  | (none, some a) => do
    unlock a .node
    deleteFirst a
    pure true
  | (some b, some c) => do
    unlock c .node
    deleteNext b c
    pure true
  | (_, none) => pure false

/-- `deleteTopicData`. -/
def deleteTopicData (path : Option CStr) : LockProg Bool := do
  match ← getTopic path with
  | some a => do
    updateNode a fun t => { t with data := none, dataMa := 0 }
    pure true
  | none => pure false

/-- The loop of `cleanDB`. -/
def cleanLoop : ℕ → LockProg Unit
  | 0 => do
    match ← head with
    | none => pure ()
    | some _ => cyclic
  | n + 1 => do
    match ← head with
    | none => pure ()
    | some a => do
      deleteFirst a
      cleanLoop n

/-- `cleanDB`. -/
def cleanDB : LockProg Unit := do
  let n ← size
  cleanLoop n

/-! ## Nodes -/

variable {s : LockedNodes} {a : ℕ} {c : Cell TopicData} {p : Ptr} {path : Option CStr}

theorem runs_newNode (m : Malloc) (val : TopicData) :
    Runs (newNode m val) s (m.ptr s.heap.keys)
      (s.addCell (m.ptr s.heap.keys) ⟨val, none⟩ fun _ => .free) := by
  have ha : m.ptr s.heap.keys ∈ s.heap.insert (m.ptr s.heap.keys) ⟨val, none⟩ :=
    Finmap.mem_insert.2 (.inl rfl)
  -- both locks have been initialised
  have hlocks : Function.update (Function.update (fun _ => Lock.uninit) LockKind.node .free)
      .data .free = fun _ => .free := by
    funext k
    cases k <;> rfl
  refine .bind runs_malloc (.bind (runs_init ha Locked.addCell_locks_self) ?_)
  rw [Locked.addCell_setLock_self]
  refine .bind (runs_init ha Locked.addCell_locks_self) ?_
  rw [Locked.addCell_setLock_self, hlocks]
  exact runs_pure

theorem runs_freeNode (hs : s.Free) (ha : a ∈ s.heap) :
    ∃ t : LockedNodes, Runs (freeNode a) s () t ∧ t.toNodes = ⟨s.heap.erase a, s.head⟩ ∧
      t.Free := by
  refine ⟨_, .bind (runs_destroy ha (hs a ha .node)) (.bind (runs_destroy ha ?_) (runs_free ha)),
    rfl, ?_⟩
  · rw [Locked.setLock_locks_of_kind_ne (by decide)]
    exact hs a ha .data
  · intro b hb k
    obtain ⟨hne, hb⟩ := Finmap.mem_erase.1 hb
    rw [Locked.setHeap_locks, Locked.setLock_locks_of_ne hne, Locked.setLock_locks_of_ne hne]
    exact hs b hb k

/-! ## Looking for a path -/

/-- Without a node or a path, no lock is taken. -/
theorem runs_search_null (h : s.head = none ∨ path = none) :
    Runs (search path) s (none, none) s := by
  refine .bind runs_head ?_
  rcases hp : s.head with _ | a
  · exact runs_pure
  · have hpath := h.resolve_left (hp ▸ Option.some_ne_none a)
    simp only [if_pos hpath]
    exact runs_pure

theorem ne_none_of_compareString {x : Option CStr} (h : compareString x path = true) :
    path ≠ none := by
  rintro rfl
  cases x <;> cases h

theorem runs_search_first (hs : s.Free) (hp : s.head = some a) (hc : s.heap.lookup a = some c)
    (heq : compareString (some c.val.path) path = true) :
    Runs (search path) s (none, some a) (s.setLock a .node (.read 0)) := by
  have ha : a ∈ s.heap := Finmap.mem_of_lookup_eq_some hc
  refine .bind runs_head ?_
  rw [hp]
  simp only [if_neg (ne_none_of_compareString heq)]
  refine .bind (runs_rdlock ha (hs a ha .node)) (.bind (runs_load hc) ?_)
  rw [if_pos heq]
  exact runs_pure

theorem runs_search_rest (hs : s.Free) (hp : s.head = some a) (hc : s.heap.lookup a = some c)
    (hpath : path ≠ none) (hne : compareString (some c.val.path) path = false) {r : Ptr × Ptr}
    (hw : s.toNodes.walkTo path (some a) c.nextPtr = .ok r) :
    Runs (search path) s r (s.reading .node r.2) := by
  have ha : a ∈ s.heap := Finmap.mem_of_lookup_eq_some hc
  refine .bind runs_head ?_
  rw [hp]
  simp only [if_neg hpath]
  refine .bind (runs_rdlock ha (hs a ha .node)) (.bind (runs_load hc) ?_)
  rw [if_neg (Bool.eq_false_iff.1 hne)]
  exact .bind (runs_unlock rfl ha (hs a ha .node)) (.bind runs_size (runs_walk hs hw))

/-- The search finds what `getTopic` returns. -/
theorem exists_search (hs : s.Free) (h : s.toNodes.getTopic path = .ok p) :
    ∃ prev, Runs (search path) s (prev, p) (s.reading .node p) ∧
      ∀ a, p = some a → a ∈ s.heap := by
  rw [Nodes.getTopic] at h
  rcases hp : s.head with _ | a
  · rw [toNodes, hp] at h
    cases h
    exact ⟨none, runs_search_null (.inl hp), fun a ha => by cases ha⟩
  · rw [show s.toNodes.sPtr = some a from hp] at h
    by_cases hpath : path = none
    · simp only [if_pos hpath] at h
      cases h
      exact ⟨none, runs_search_null (.inr hpath), fun a ha => by cases ha⟩
    · simp only [if_neg hpath] at h
      obtain ⟨c, hc, h⟩ := exists_of_bind h
      have hc := lookup_of_load hc
      by_cases heq : compareString (some c.val.path) path = true
      · rw [if_pos heq] at h
        cases h
        exact ⟨none, runs_search_first hs hp hc heq, fun b hb => by
          cases hb
          exact Finmap.mem_of_lookup_eq_some hc⟩
      · rw [if_neg heq] at h
        obtain ⟨⟨prev, q⟩, hw, h⟩ := exists_of_bind h
        cases h
        refine ⟨prev, runs_search_rest hs hp hc hpath (Bool.eq_false_of_not_eq_true heq) hw, ?_⟩
        intro b hb
        obtain ⟨cb, hcb, -⟩ := (walk_ok hw).2 b hb
        exact Finmap.mem_of_lookup_eq_some hcb

theorem runs_getTopic (hs : s.Free) (h : s.toNodes.getTopic path = .ok p) :
    Runs (getTopic path) s p s := by
  obtain ⟨prev, hrun, hmem⟩ := exists_search hs h
  refine .bind hrun ?_
  rcases p with _ | a
  · exact runs_pure
  · exact .bind (runs_unlock rfl (hmem a rfl) (hs a (hmem a rfl) .node)) runs_pure

/-! ## What the functions do -/

/-- When the function without locks returns, the one with them does, the result and the nodes
    are the same, and all locks are free again. -/
def Follows {β : Type} (run : LockProg β) (s : LockedNodes)
    (res : Except HeapFault (Nodes × β)) : Prop :=
  ∀ n x, res = .ok (n, x) → ∃ t : LockedNodes, Runs run s x t ∧ t.toNodes = n ∧ t.Free

section

variable {β γ : Type} {f : β → LockProg γ} {g : β → Except HeapFault (Nodes × γ)}

theorem Follows.pure (hs : s.Free) (x : β) : Follows (pure x) s (.ok (s.toNodes, x)) := by
  intro n y h
  cases h
  exact ⟨s, runs_pure, rfl, hs⟩

/-- Both look for the path first. -/
theorem Follows.getTopic {f : Ptr → LockProg γ}
    {g : Ptr → Except HeapFault (Nodes × γ)} (hs : s.Free) (hf : ∀ p, Follows (f p) s (g p)) :
    Follows (getTopic path >>= f) s (s.toNodes.getTopic path >>= g) := by
  intro n x h
  obtain ⟨p, hp, h⟩ := exists_of_bind h
  obtain ⟨t, hrun, ht⟩ := hf p n x h
  exact ⟨t, .bind (runs_getTopic hs hp) hrun, ht⟩

/-- Both read a node first. -/
theorem Follows.load {f : Cell TopicData → LockProg γ}
    {g : Cell TopicData → Except HeapFault (Nodes × γ)}
    (hf : ∀ c, s.heap.lookup a = some c → Follows (f c) s (g c)) :
    Follows (load a >>= f) s (PtrList.load s.toNodes.heap a >>= g) := by
  intro n x h
  obtain ⟨c, hc, h⟩ := exists_of_bind h
  obtain ⟨t, hrun, ht⟩ := hf c (lookup_of_load hc) n x h
  exact ⟨t, .bind (runs_load (lookup_of_load hc)) hrun, ht⟩

end

/-- The copy is made while the node is locked, and the locks of the copy are free. -/
theorem cloneTopic_follows (hs : s.Free) (m : Malloc) (path : Option CStr) :
    Follows (cloneTopic m path) s (s.toNodes.cloneTopic m path) := by
  intro n x h
  obtain ⟨p, hp, h⟩ := exists_of_bind h
  obtain ⟨prev, hrun, hmem⟩ := exists_search hs hp
  rcases p with _ | a
  · cases h
    exact ⟨s, .bind hrun runs_pure, rfl, hs⟩
  · obtain ⟨c, hc, h⟩ := exists_of_bind h
    cases h
    have ha := hmem a rfl
    have hne : a ≠ m.ptr s.heap.keys := fun heq =>
      m.fresh s.heap.keys (heq ▸ Finmap.mem_keys.2 ha)
    -- the new node has been added while the lock was held, which is another one
    have hunlock : Runs (unlock a .node)
        ((s.setLock a .node (.read 0)).addCell (m.ptr s.heap.keys) ⟨c.val, none⟩ fun _ => .free) ()
        (s.addCell (m.ptr s.heap.keys) ⟨c.val, none⟩ fun _ => .free) := by
      rw [← Locked.addCell_setLock_of_ne hne]
      refine runs_unlock rfl (Finmap.mem_insert.2 (.inr ha)) ?_
      rw [Locked.addCell_locks_of_ne hne]
      exact hs a ha .node
    exact ⟨_, .bind hrun (.bind (runs_load (lookup_of_load hc))
      (.bind (runs_newNode m c.val) (.bind hunlock runs_pure))), rfl, hs.addCell _ _⟩

/-- Writing the fields of a node. -/
theorem updateNode_follows (hs : s.Free) (f : TopicData → TopicData) :
    Follows (do updateNode a f; pure true) s (do
      let topic ← PtrList.load s.toNodes.heap a
      .ok ({ s.toNodes with
        heap := s.toNodes.heap.insert a { topic with val := f topic.val } }, true)) := by
  intro n x h
  obtain ⟨c, hc, h⟩ := exists_of_bind h
  have hc := lookup_of_load hc
  cases h
  have ha : a ∈ s.heap := Finmap.mem_of_lookup_eq_some hc
  have ha' : a ∈ s.heap.insert a { c with val := f c.val } := Finmap.mem_insert.2 (.inl rfl)
  have ht := hs.insert ha { c with val := f c.val }
  have hdata : ∀ h : Heap TopicData,
      ((s.setHeap h).setLock a .node (.read 0)).locks (a, .data) = .free := fun h => by
    rw [Locked.setLock_locks_of_kind_ne (by decide)]
    exact hs a ha .data
  have hrun : Runs (updateNode a f) s ()
      (s.setHeap (s.heap.insert a { c with val := f c.val })) := by
    refine .bind (runs_rdlock ha (hs a ha .node)) (.bind (runs_wrlock ha (hdata s.heap))
      (.bind (runs_load hc) (.bind (runs_store ha) ?_)))
    rw [Locked.setHeap_setLock, Locked.setHeap_setLock]
    exact .bind (runs_unlock rfl ha' (hdata _)) (runs_unlock rfl ha' (ht a ha' .node))
  exact ⟨_, .bind hrun runs_pure, rfl, ht⟩

theorem setTopic_follows (hs : s.Free) (path : Option CStr) (data : Option (List Byte))
    (dataSize : ℕ) (topicMa dataMa : ℤ) :
    Follows (setTopic path data dataSize topicMa dataMa) s
      (s.toNodes.setTopic path data dataSize topicMa dataMa) := by
  refine .getTopic hs fun p => ?_
  rcases p with _ | a
  · exact .pure hs false
  · exact updateNode_follows hs fun t => { t with data := copyData data dataSize, topicMa, dataMa }

theorem deleteTopicData_follows (hs : s.Free) (path : Option CStr) :
    Follows (deleteTopicData path) s (s.toNodes.deleteTopicData path) := by
  refine .getTopic hs fun p => ?_
  rcases p with _ | a
  · exact .pure hs false
  · exact updateNode_follows hs fun t => { t with data := none, dataMa := 0 }

theorem updateTopicInfo_follows (hs : s.Free) (path : Option CStr) (topicMa : ℤ) :
    Follows (updateTopicInfo path topicMa) s (s.toNodes.updateTopicInfo path topicMa) := by
  refine .getTopic hs fun p => ?_
  rcases p with _ | a
  · exact .pure hs false
  · exact .load fun _ _ => setTopic_follows hs path _ _ topicMa _

theorem updateTopicData_follows (hs : s.Free) (path : Option CStr) (dataMa : ℤ)
    (data : Option (List Byte)) (dataSize : ℕ) :
    Follows (updateTopicData path dataMa data dataSize) s
      (s.toNodes.updateTopicData path dataMa data dataSize) := by
  refine .getTopic hs fun p => ?_
  rcases p with _ | a
  · exact .pure hs false
  · exact .load fun _ _ => setTopic_follows hs path data dataSize _ dataMa

theorem runs_linkNode (hs : s.Free) {b : ℕ} {cb : Cell TopicData} (hb : s.heap.lookup b = some cb)
    {val : TopicData} (ha : s.heap.lookup a = some ⟨val, none⟩) (hne : a ≠ b) :
    Runs (linkNode b a val none) s ()
      (s.setHeap (s.heap.insert b { cb with nextPtr := some a })) := by
  have hmem : b ∈ s.heap := Finmap.mem_of_lookup_eq_some hb
  have hb' : b ∈ s.heap.insert b { cb with nextPtr := some a } := Finmap.mem_insert.2 (.inl rfl)
  have ha' : (s.heap.insert b { cb with nextPtr := some a }).lookup a = some ⟨val, none⟩ := by
    rw [Finmap.lookup_insert_of_ne _ hne, ha]
  refine .bind (runs_wrlock hmem (hs b hmem .node)) (.bind (runs_load hb)
    (.bind (runs_store hmem) (.bind (runs_store (Finmap.mem_of_lookup_eq_some ha')) ?_)))
  simp only [Locked.setHeap_setLock, Locked.setHeap_setHeap, Locked.setLock_heap,
    Locked.setHeap_heap, insert_of_lookup ha']
  exact runs_unlock rfl hb' (hs.insert hmem _ b hb' .node)

/-- The new node is not on the way of the walk, which ends at the last one. -/
theorem addTopic_follows (hs : s.Free) (m : Malloc) (path : Option CStr) (pathSize : ℕ)
    (topicMa : ℤ) :
    Follows (addTopic m path pathSize topicMa) s
      (s.toNodes.addTopic m path pathSize topicMa) := by
  rcases path with _ | path
  · exact .pure hs false
  rw [addTopic, Nodes.addTopic]
  by_cases hn : pathSize > 0
  · simp only [if_pos hn]
    intro n x h
    obtain ⟨⟨prev, q⟩, hw, h⟩ := exists_of_bind h
    dsimp only [toNodes] at h hw
    obtain ⟨rfl, hprev⟩ := walk_false_ok hw
    generalize { path := CStr.read (path.bytes.take pathSize), data := none, topicMa, dataMa := 0 :
      TopicData } = val at h ⊢
    have hfresh := m.lookup_ptr s.heap
    have hnew := runs_newNode (s := s) m val
    generalize m.ptr s.heap.keys = a at hfresh hnew h
    have hwalk := runs_walk (k := LockKind.node) (hs.addCell a ⟨val, none⟩)
      (walk_mono hw (card_keys_le_insert s.heap a ⟨val, none⟩) fun _ _ =>
        lookup_insert_of_lookup hfresh)
    have hfree := hs.addCell a ⟨val, none⟩
    have ha : a ∈ s.heap.insert a ⟨val, none⟩ := Finmap.mem_insert.2 (.inl rfl)
    rcases hprev with ⟨rfl, hhead⟩ | ⟨b, cb, rfl, hcb⟩
    · -- the list is empty
      cases h
      refine ⟨_, .bind hnew (.bind runs_size (.bind runs_head (.bind hwalk (.bind runs_head
        (.bind (runs_store ha) (.bind runs_setHead runs_pure)))))), ?_, hfree.insert ha _⟩
      simp only [toNodes, Locked.setHead, Locked.setHeap, Locked.addCell, Locked.reading, hhead,
        Finmap.insert_insert]
    · -- the last node is there with the new one, too
      have hne : a ≠ b := fun heq => by rw [heq, hcb] at hfresh; cases hfresh
      have hcb := lookup_insert_of_lookup (c := ⟨val, none⟩) hfresh hcb
      simp only [bind, Except.bind, load_of_lookup hcb] at h
      cases h
      have hlink := runs_linkNode hfree hcb (Finmap.lookup_insert s.heap) hne
      exact ⟨_, .bind hnew (.bind runs_size (.bind runs_head (.bind hwalk
        (.bind hlink runs_pure)))), rfl, hfree.insert (Finmap.mem_of_lookup_eq_some hcb) _⟩
  · simp only [if_neg hn]
    exact .pure hs false

theorem addTopicWEC_follows (hs : s.Free) (m : Malloc) (path : Option CStr) (pathSize : ℕ)
    (topicMa : ℤ) :
    Follows (addTopicWEC m path pathSize topicMa) s
      (s.toNodes.addTopicWEC m path pathSize topicMa) := by
  refine .getTopic hs fun p => ?_
  rcases p with _ | a
  · exact addTopic_follows hs m path pathSize topicMa
  · exact updateTopicInfo_follows hs path topicMa

theorem runs_deleteFirst (hs : s.Free) (hc : s.heap.lookup a = some c) :
    ∃ t : LockedNodes, Runs (deleteFirst a) s () t ∧ t.toNodes = ⟨s.heap.erase a, c.nextPtr⟩ ∧
      t.Free := by
  have ha : a ∈ s.heap := Finmap.mem_of_lookup_eq_some hc
  obtain ⟨t, hfree, ht⟩ := runs_freeNode (s := s.setHead c.nextPtr) hs ha
  refine ⟨t, .bind (runs_wrlock ha (hs a ha .node)) (.bind (runs_load hc)
    (.bind runs_setHead ?_)), ht⟩
  rw [Locked.setHead_setLock]
  exact .bind (runs_unlock rfl ha (hs a ha .node)) hfree

theorem runs_deleteNext (hs : s.Free) {b : ℕ} {cb : Cell TopicData}
    (hb : s.heap.lookup b = some cb) (hc : s.heap.lookup a = some c) (hne : a ≠ b) :
    ∃ t : LockedNodes, Runs (deleteNext b a) s () t ∧
      t.toNodes = ⟨(s.heap.insert b { cb with nextPtr := c.nextPtr }).erase a, s.head⟩ ∧
      t.Free := by
  have ha : a ∈ s.heap := Finmap.mem_of_lookup_eq_some hc
  have hmem : b ∈ s.heap := Finmap.mem_of_lookup_eq_some hb
  have hs' := hs.insert hmem { cb with nextPtr := c.nextPtr }
  have ha' : a ∈ s.heap.insert b { cb with nextPtr := c.nextPtr } := Finmap.mem_insert.2 (.inr ha)
  have hb' : b ∈ s.heap.insert b { cb with nextPtr := c.nextPtr } :=
    Finmap.mem_insert.2 (.inl rfl)
  obtain ⟨t, hfree, ht⟩ := runs_freeNode hs' ha'
  have hlock : ∀ h : Heap TopicData,
      ((s.setHeap h).setLock b .node .write).locks (a, .node) = .free := fun h => by
    rw [Locked.setLock_locks_of_ne hne]
    exact hs a ha .node
  refine ⟨t, .bind (runs_wrlock hmem (hs b hmem .node)) (.bind (runs_wrlock ha (hlock s.heap))
    (.bind (runs_load hc) (.bind (runs_load hb) (.bind (runs_store hmem) ?_)))), ht⟩
  rw [Locked.setHeap_setLock, Locked.setHeap_setLock]
  exact .bind (runs_unlock rfl ha' (hlock _)) (.bind (runs_unlock rfl hb' (hs' b hb' .node)) hfree)

/-- The previous node is not the one that is taken out, as it does not have the path. -/
theorem deleteTopic_follows (hs : s.Free) (path : Option CStr) :
    Follows (deleteTopic path) s (s.toNodes.deleteTopic path) := by
  intro n x h
  rw [Nodes.deleteTopic] at h
  rcases hp : s.head with _ | a
  · rw [show s.toNodes.sPtr = none from hp] at h
    cases h
    exact ⟨s, .bind (runs_search_null (.inl hp)) runs_pure, rfl, hs⟩
  rw [show s.toNodes.sPtr = some a from hp] at h
  by_cases hpath : path = none
  · simp only [if_pos hpath] at h
    cases h
    exact ⟨s, .bind (runs_search_null (.inr hpath)) runs_pure, rfl, hs⟩
  simp only [if_neg hpath] at h
  obtain ⟨c, hc, h⟩ := exists_of_bind h
  have hc := lookup_of_load hc
  by_cases heq : compareString (some c.val.path) path = true
  · rw [if_pos heq] at h
    cases h
    have ha := Finmap.mem_of_lookup_eq_some hc
    obtain ⟨t, hdel, ht⟩ := runs_deleteFirst hs hc
    exact ⟨t, .bind (runs_search_first hs hp hc heq)
      (.bind (runs_unlock rfl ha (hs a ha .node)) (.bind hdel runs_pure)), ht⟩
  rw [if_neg heq] at h
  have hne := Bool.eq_false_of_not_eq_true heq
  obtain ⟨⟨prev, q⟩, hw, h⟩ := exists_of_bind h
  have hsearch := runs_search_rest hs hp hc hpath hne hw
  obtain ⟨hprev, hend⟩ := walk_ok hw
  rcases q with _ | d
  · cases prev <;>
    · cases h
      exact ⟨s, .bind hsearch runs_pure, rfl, hs⟩
  · rcases prev with _ | b
    · cases h
    · obtain ⟨cd, hcd, h⟩ := exists_of_bind h
      obtain ⟨cb, hcb, h⟩ := exists_of_bind h
      have hcd := lookup_of_load hcd
      have hcb := lookup_of_load hcb
      cases h
      have hd := Finmap.mem_of_lookup_eq_some hcd
      have hdb : d ≠ b := by
        -- the walk has passed the previous node, as it does not have the path
        rintro rfl
        obtain ⟨c', hc', hstop⟩ := hend d rfl
        rcases hprev with ⟨hb, -⟩ | ⟨_, c'', hb, hc'', hstop'⟩
        · obtain rfl := Option.some.inj hb
          obtain rfl := Option.some.inj (hc'.symm.trans hc)
          exact heq hstop
        · obtain rfl := Option.some.inj hb
          obtain rfl := Option.some.inj (hc'.symm.trans hc'')
          exact Bool.false_ne_true (hstop'.symm.trans hstop)
      obtain ⟨t, hdel, ht⟩ := runs_deleteNext hs hcb hcd hdb
      exact ⟨t, .bind hsearch (.bind (runs_unlock rfl hd (hs d hd .node))
        (.bind hdel runs_pure)), hp ▸ ht⟩

/-! ## Emptying the store -/

/-- The loop ends with an empty store, whatever the paths are. -/
theorem runs_cleanLoop {n : ℕ} {l : List (ℕ × TopicData)} (hs : s.Free)
    (hl : Segment s.heap s.head l none) (hn : l.length ≤ n) :
    ∃ t : LockedNodes, Runs (cleanLoop n) s () t ∧ t.toNodes.Represents [] ∧ t.Free := by
  induction l generalizing s n with
  | nil =>
    have hp := segment_nil_iff.1 hl
    refine ⟨s, ?_, ⟨[], hl, rfl⟩, hs⟩
    cases n <;>
    · refine .bind runs_head ?_
      rw [hp]
      exact runs_pure
  | cons x l ih =>
    obtain ⟨n, rfl⟩ : ∃ m, n = m + 1 := ⟨n - 1, by rw [List.length_cons] at hn; omega⟩
    obtain ⟨hp, c, hc, -, -⟩ := segment_cons_iff.1 hl
    obtain ⟨t, hdel, hnodes, ht⟩ := runs_deleteFirst hs hc
    have hheap : t.heap = s.heap.erase x.1 := congrArg Nodes.heap hnodes
    have hhead : t.head = c.nextPtr := congrArg Nodes.sPtr hnodes
    have hl' : Segment t.heap t.head l none := by
      rw [hheap, hhead]
      exact hl.unlink_head hc
    obtain ⟨u, hrun, hu⟩ := ih ht hl' (by simpa using hn)
    refine ⟨u, .bind runs_head ?_, hu⟩
    rw [hp]
    exact .bind hdel hrun

theorem runs_cleanDB {db : TopicDB} (hs : s.Free) (h : s.toNodes.Represents db) :
    ∃ t : LockedNodes, Runs cleanDB s () t ∧ t.toNodes.Represents [] ∧ t.Free := by
  obtain ⟨l, hl, -⟩ := h
  obtain ⟨t, hrun, ht⟩ := runs_cleanLoop hs hl hl.length_le
  exact ⟨t, .bind runs_size hrun, ht⟩

/-! ## On a store -/

/-- On the nodes of a store, a function leaves the nodes of the store that the function on the
    records leaves, with the same result. -/
theorem Follows.of_agrees {run : LockProg Bool}
    {res : Except HeapFault (Nodes × Bool)} {r : TopicDB × Bool} (hf : Follows run s res)
    (h : Nodes.Agrees res r) :
    ∃ t : LockedNodes, Runs run s r.2 t ∧ t.toNodes.Represents r.1 ∧ t.Free := by
  obtain ⟨n, hres, hn⟩ := h
  obtain ⟨t, hrun, rfl, ht⟩ := hf n r.2 hres
  exact ⟨t, hrun, hn, ht⟩

end LockedNodes

end CoapBroker
