import CoapBroker.Cpp.TopicDB
import CoapBroker.Lib.PtrList

/-!
# The nodes of the topic store of the C++ broker

The functions of the class `TopicDB` (`LinkedListDB.cpp`) on the nodes themselves: a heap, the
pointer `sPtr` to the first node, and the counter `length_`. The lookups and `delete_topic` test
the first node on its own and then walk through the rest; `add_topic` walks from the first node
on, up to the path or to the end.

The pointers are shared, so that a node which is taken out may still be pointed to: it stays on
the heap here. What the functions come to on the list of the records is said by lemmas
`.._agrees`, as for the nodes of the C broker.
-/

namespace CoapBroker.Cpp

open PtrList

/-- `string_equal`: equality of two strings that are not empty. -/
def stringEqual (a b : CStr) : Bool :=
  if a = CStr.empty ∨ b = CStr.empty then false else a = b

theorem stringEqual_eq_right {a b : CStr} (hb : b ≠ CStr.empty) :
    stringEqual a b = decide (a = b) := by
  rw [stringEqual]
  split_ifs with h
  · obtain rfl := h.resolve_right hb
    exact (decide_eq_false hb.symm).symm
  · rfl

theorem stringEqual_eq_left {a b : CStr} (ha : a ≠ CStr.empty) :
    stringEqual a b = decide (b = a) := by
  rw [stringEqual]
  split_ifs with h
  · obtain rfl := h.resolve_left ha
    exact (decide_eq_false ha.symm).symm
  · exact decide_eq_decide.2 eq_comm

/-- The nodes of the store. -/
structure Nodes where
  heap : Heap TopicData
  sPtr : Ptr := none
  length : ℤ := 0

namespace Nodes

/-! ## The functions -/

/-- The loop of the lookups and of `delete_topic`, up to the path or to the end. -/
def walkTo (s : Nodes) (path : CStr) (previousPtr currentPtr : Ptr) :
    Except HeapFault (Ptr × Ptr) :=
  walk s.heap (fun t => stringEqual t.path path) s.heap.keys.card previousPtr currentPtr

/-- `get_topic`: when the counter is not `0`, the first node is read. -/
def getTopic (s : Nodes) (path : CStr) : Except HeapFault Ptr :=
  if path = CStr.empty ∨ s.length = 0 then .ok none
  else
    match s.sPtr with
    | none => .error .dangling
    | some a => do
      let first ← load s.heap a
      if stringEqual first.val.path path then .ok (some a)
      else
        let (_, currentPtr) ← s.walkTo path (some a) first.nextPtr
        .ok currentPtr

/-- `copy_topic`: looking for the path as `get_topic` does, and copying the node with its
    pointer to the next one. -/
def copyTopic (m : Malloc) (s : Nodes) (path : CStr) : Except HeapFault (Nodes × Ptr) := do
  match ← s.getTopic path with
  | none => .ok (s, none)
  | some a => do
    let temp ← load s.heap a
    let newPtr := m.ptr s.heap.keys
    .ok ({ s with heap := s.heap.insert newPtr temp }, some newPtr)

/-- `update_topic` on a node, skipped for a null pointer. -/
def updateTopic (s : Nodes) (p : Ptr) (update : TopicData → TopicData) :
    Except HeapFault (Nodes × Bool) :=
  match p with
  | none => .ok (s, false)
  | some a => do
    let topic ← load s.heap a
    .ok ({ s with heap := s.heap.insert a { topic with val := update topic.val } }, true)

/-- `add_topic`. -/
def addTopic (m : Malloc) (s : Nodes) (path : CStr) (topicMa : ℤ) :
    Except HeapFault (Nodes × Bool) :=
  if path = CStr.empty then .ok (s, false)
  else do
    let newPtr := m.ptr s.heap.keys
    match ← walk s.heap (fun t => stringEqual path t.path) s.heap.keys.card none s.sPtr with
    | (none, none) =>
      .ok ({ heap := s.heap.insert newPtr ⟨{ path, topicMa }, s.sPtr⟩, sPtr := some newPtr,
             length := s.length + 1 }, true)
    | (some b, none) => do
      let heap := s.heap.insert newPtr ⟨{ path, topicMa }, none⟩
      let previous ← load heap b
      .ok ({ s with heap := heap.insert b { previous with nextPtr := some newPtr }
                    length := s.length + 1 }, true)
    | (_, some a) => do
      let current ← load s.heap a
      if stringEqual path current.val.path then
        s.updateTopic (some a) fun t => { t with topicMa }
      else .ok (s, false)

/-- `delete_topic`: the first node is unthreaded on its own. -/
def deleteTopic (s : Nodes) (path : CStr) : Except HeapFault (Nodes × Bool) :=
  if path = CStr.empty then .ok (s, false)
  else
    match s.sPtr with
    | none => .ok (s, false)
    | some a => do
      let first ← load s.heap a
      if stringEqual first.val.path path then
        .ok ({ s with sPtr := first.nextPtr, length := s.length - 1 }, true)
      else
        match ← s.walkTo path (some a) first.nextPtr with
        | (some b, some c) => do
          let current ← load s.heap c
          let previous ← load s.heap b
          .ok ({ s with heap := s.heap.insert b { previous with nextPtr := current.nextPtr }
                        length := s.length - 1 }, true)
        -- the pointer to the previous node is never null
        | (none, some _) => .error .dangling
        | (_, none) => .ok (s, false)

/-! ## Looking for a path -/

/-- The nodes are a list of records, with the counter of the store. -/
structure Represents (s : Nodes) (db : TopicDB) : Prop where
  nodes : ∃ l, Segment s.heap s.sPtr l none ∧ l.map Prod.snd = db.nodes
  length : s.length = db.length

/-- Walking through the whole list, the first node included. -/
def walkFrom (s : Nodes) (path : CStr) : Except HeapFault (Ptr × Ptr) :=
  walk s.heap (fun t => stringEqual t.path path) (s.heap.keys.card + 1) none s.sPtr

/-- The nodes are a list, with the first node that has the path. -/
abbrev At (s : Nodes) (l₁ : List (ℕ × TopicData)) (a : ℕ) (t : TopicData)
    (l₂ : List (ℕ × TopicData)) (path : CStr) : Prop :=
  FirstAt s.heap s.sPtr TopicData.path path l₁ a t l₂

variable {s : Nodes} {db : TopicDB} {path : CStr}

/-- A path is there or is not. -/
theorem represents_cases (h : s.Represents db) (path : CStr) :
    (∃ l₁ a t l₂, At s l₁ a t l₂ path ∧ db.nodes = l₁.map Prod.snd ++ t :: l₂.map Prod.snd ∧
      path ∈ db.paths) ∨
    ∃ l, Segment s.heap s.sPtr l none ∧ l.map Prod.snd = db.nodes ∧ (∀ c ∈ l, c.2.path ≠ path) ∧
      path ∉ db.paths := by
  obtain ⟨l, hs, hl⟩ := h.nodes
  rw [TopicDB.paths, ← hl]
  rcases exists_firstAt hs TopicData.path path with ⟨l₁, a, t, l₂, hat, rfl⟩ | hno
  · refine .inl ⟨l₁, a, t, l₂, hat, List.map_append, ?_⟩
    rw [← hat.key_eq]
    exact List.mem_map_of_mem
      (List.mem_map_of_mem (List.mem_append_right _ List.mem_cons_self))
  · exact .inr ⟨l, hs, rfl, hno, notMem_keys hno⟩

theorem walkFrom_of_at {l₁ l₂ : List (ℕ × TopicData)} {a : ℕ} {t : TopicData}
    (hat : At s l₁ a t l₂ path) (hne : path ≠ CStr.empty) :
    s.walkFrom path = .ok (lastPtr none l₁, some a) :=
  hat.walk (fun _ => stringEqual_eq_right hne) (Nat.le_succ _)

theorem walkFrom_of_notMem {l : List (ℕ × TopicData)} (hs : Segment s.heap s.sPtr l none)
    (hl : ∀ c ∈ l, c.2.path ≠ path) (hne : path ≠ CStr.empty) :
    s.walkFrom path = .ok (lastPtr none l, none) :=
  walk_notMem hs hl (fun _ => stringEqual_eq_right hne) (Nat.le_succ _)

/-- The counter is `0` exactly if there is no first node. -/
theorem Represents.sPtr_eq_none (h : s.Represents db) (hlen : db.length = db.nodes.length) :
    s.length = 0 ↔ s.sPtr = none := by
  obtain ⟨l, hs, hl⟩ := h.nodes
  rw [h.length, hlen, ← hl, List.length_map, Int.natCast_eq_zero, List.length_eq_zero_iff]
  constructor
  · rintro rfl
    exact segment_nil_iff.1 hs
  · intro hp
    rcases l with _ | ⟨c, l⟩
    · rfl
    · rw [hp] at hs
      cases (segment_cons_iff.1 hs).1

/-- Testing the first node on its own makes no difference. -/
theorem getTopic_eq_walkFrom (hne : path ≠ CStr.empty) (hs : s.length = 0 ↔ s.sPtr = none) :
    s.getTopic path = (s.walkFrom path).map Prod.snd := by
  rw [getTopic, walkFrom]
  rcases hp : s.sPtr with _ | a
  · rw [if_pos (.inr (hs.2 hp))]
    rfl
  · have hlen : s.length ≠ 0 := fun h0 => by simp [hs.1 h0] at hp
    rw [if_neg (not_or.2 ⟨hne, hlen⟩), walk]
    simp only [bind, Except.bind, walkTo]
    rcases load s.heap a with f | first
    · rfl
    · dsimp only
      split_ifs
      · rfl
      · rcases walk s.heap _ _ (some a) first.nextPtr with f | ⟨p, q⟩ <;> rfl

/-- After the first node, the loop goes on with the walk. -/
theorem walkTo_eq_walkFrom {a : ℕ} {first : Cell TopicData} (hp : s.sPtr = some a)
    (hc : s.heap.lookup a = some first) (hfirst : stringEqual first.val.path path = false) :
    s.walkTo path (some a) first.nextPtr = s.walkFrom path := by
  rw [walkFrom, hp, walk, load_of_lookup hc]
  dsimp only
  rw [if_neg (by rw [hfirst]; exact Bool.false_ne_true), walkTo]

/-! ## What the functions come to -/

/-- A function of the store and the one on its nodes: neither fails, the results are the same,
    and the nodes are the store afterwards. -/
def Agrees (run : Except HeapFault (Nodes × Bool)) (res : TopicDB × Bool) : Prop :=
  ∃ s, run = .ok (s, res.2) ∧ s.Represents res.1

section

variable (h : s.Represents db)
include h

theorem getTopic_of_notMem (hlen : db.length = db.nodes.length) {l : List (ℕ × TopicData)}
    (hs : Segment s.heap s.sPtr l none) (hl : ∀ c ∈ l, c.2.path ≠ path) :
    s.getTopic path = .ok none := by
  by_cases hne : path = CStr.empty
  · rw [getTopic, if_pos (.inl hne)]
  · rw [getTopic_eq_walkFrom hne (h.sPtr_eq_none hlen), walkFrom_of_notMem hs hl hne]
    rfl

theorem getTopic_of_at (hlen : db.length = db.nodes.length) {l₁ l₂ : List (ℕ × TopicData)} {a : ℕ}
    {t : TopicData} (hat : At s l₁ a t l₂ path) (hne : path ≠ CStr.empty) :
    s.getTopic path = .ok (some a) := by
  rw [getTopic_eq_walkFrom hne (h.sPtr_eq_none hlen), walkFrom_of_at hat hne]
  rfl

omit h in
theorem At.path_ne (hdb : db.Exact) {l₁ l₂ : List (ℕ × TopicData)} {a : ℕ} {t : TopicData}
    (hat : At s l₁ a t l₂ path) (hnodes : db.nodes = l₁.map Prod.snd ++ t :: l₂.map Prod.snd) :
    path ≠ CStr.empty := by
  rw [← hat.key_eq]
  exact hdb.path_ne t (hnodes ▸ List.mem_append_right _ List.mem_cons_self)

/-- Updating the node with the path, if there is one. -/
theorem updateTopic_agrees (hdb : db.Exact) (path : CStr) (update : TopicData → TopicData) :
    ∃ p, s.getTopic path = .ok p ∧
      Agrees (s.updateTopic p update) (db.modify path update, decide (path ∈ db.paths)) := by
  rcases represents_cases h path with ⟨l₁, a, t, l₂, hat, hnodes, hmem⟩ | ⟨l, hs, hnodes, hl, hmem⟩
  · refine ⟨some a, getTopic_of_at h hdb.length hat (At.path_ne hdb hat hnodes), ?_⟩
    obtain ⟨c, hc, rfl⟩ := hat.exists_cell
    obtain ⟨hs', hl'⟩ := hat.store hc update
    rw [updateTopic]
    simp only [bind, Except.bind, load_of_lookup hc, decide_eq_true hmem]
    refine ⟨_, rfl, ⟨_, hs', ?_⟩, h.length⟩
    rw [hl', TopicDB.modify, hnodes]
  · refine ⟨none, getTopic_of_notMem h hdb.length hs hl, s, ?_, ?_⟩
    · rw [updateTopic, decide_eq_false hmem]
    · refine ⟨⟨l, hs, ?_⟩, h.length⟩
      rw [TopicDB.modify, ← hnodes, Keyed.modify_of_notMem (notMem_keys hl)]

/-- A copy of the node is on the heap, outside of the list. -/
theorem copyTopic_agrees (hdb : db.Exact) (m : Malloc) (path : CStr) :
    ∃ s' p, s.copyTopic m path = .ok (s', p) ∧ s'.Represents db ∧
      match Keyed.find TopicData.path db.nodes path with
      | none => p = none
      | some t => ∃ a c, p = some a ∧ s'.heap.lookup a = some c ∧ c.val = t := by
  rcases represents_cases h path with ⟨l₁, a, t, l₂, hat, hnodes, -⟩ | ⟨l, hs, hnodes, hl, -⟩
  · obtain ⟨c, hc, rfl⟩ := hat.exists_cell
    have hfresh : m.ptr s.heap.keys ∉ (l₁ ++ (a, c.val) :: l₂).map Prod.fst := fun hmem =>
      m.fresh _ (hat.segment.mem_keys _ hmem)
    have hfind : Keyed.find TopicData.path db.nodes path = some c.val := hnodes ▸ hat.find
    rw [copyTopic, getTopic_of_at h hdb.length hat (At.path_ne hdb hat hnodes)]
    simp only [bind, Except.bind, load_of_lookup hc]
    refine ⟨_, _, rfl, ⟨⟨_, hat.segment.insert_of_notMem hfresh _, ?_⟩, h.length⟩, ?_⟩
    · rw [hnodes, List.map_append, List.map_cons]
    · rw [hfind]
      exact ⟨_, c, rfl, Finmap.lookup_insert _, rfl⟩
  · have hfind : Keyed.find TopicData.path db.nodes path = none :=
      Keyed.find_eq_none.2 (hnodes ▸ notMem_keys hl)
    rw [copyTopic, getTopic_of_notMem h hdb.length hs hl]
    refine ⟨s, none, rfl, h, ?_⟩
    rw [hfind]

omit h in
/-- The first node has another path. -/
theorem exists_first_node {l : List (ℕ × TopicData)} {q : Ptr} (hs : Segment s.heap s.sPtr l q)
    (hnil : l ≠ []) (hl : ∀ c ∈ l, c.2.path ≠ path) (hne : path ≠ CStr.empty) :
    ∃ a first, s.sPtr = some a ∧ s.heap.lookup a = some first ∧
      stringEqual first.val.path path = false := by
  obtain ⟨⟨a, x⟩, l, rfl⟩ := List.exists_cons_of_ne_nil hnil
  obtain ⟨hp, c, hc, rfl, -⟩ := segment_cons_iff.1 hs
  exact ⟨a, c, hp, hc, (stringEqual_eq_right hne).trans (decide_eq_false (hl _ List.mem_cons_self))⟩

/-- The node with the path is taken out, wherever it is. -/
theorem deleteTopic_agrees (path : CStr) :
    Agrees (s.deleteTopic path) (db.deleteTopic path) := by
  by_cases hne : path = CStr.empty
  · rw [deleteTopic, TopicDB.deleteTopic, if_pos hne, if_pos (.inl hne)]
    exact ⟨s, rfl, h⟩
  rcases represents_cases h path with ⟨l₁, a, t, l₂, hat, hnodes, hmem⟩ | ⟨l, hs, hnodes, hl, hmem⟩
  · have herase : Keyed.erase TopicData.path path db.nodes =
        l₁.map Prod.snd ++ l₂.map Prod.snd := by
      rw [hnodes, Keyed.erase_append_cons (notMem_keys hat.ne) hat.key_eq]
    rw [TopicDB.deleteTopic_of_mem hmem hne, herase, deleteTopic, if_neg hne]
    obtain ⟨ca, hca, rfl⟩ := hat.exists_cell
    rcases List.eq_nil_or_concat' l₁ with rfl | ⟨l₁, ⟨b, y⟩, rfl⟩
    · -- the first node
      obtain ⟨hp, c, hc, -, hs₂⟩ := segment_cons_iff.1 hat.segment
      obtain rfl := Option.some.inj (hca.symm.trans hc)
      have hfirst : stringEqual ca.val.path path = true :=
        (stringEqual_eq_right hne).trans (decide_eq_true hat.key_eq)
      rw [hp]
      simp only [bind, Except.bind, load_of_lookup hca, hfirst]
      exact ⟨_, rfl, ⟨l₂, hs₂, rfl⟩, congrArg (· - 1) h.length⟩
    · -- the walk stops at the node, and its previous node is the last one before it
      have hs := hat.segment
      rw [List.append_assoc, List.singleton_append] at hs
      obtain ⟨cb, hcb, -⟩ := hs.split
      obtain ⟨-, -, -, hs₁, -⟩ := hat.segment.split
      obtain ⟨a₀, first, hp, hfirst, hne₀⟩ := exists_first_node hs₁
        (List.append_ne_nil_of_right_ne_nil l₁ (List.cons_ne_nil (b, y) [])) hat.ne hne
      have hwalk := walkFrom_of_at hat hne
      rw [lastPtr_concat, ← walkTo_eq_walkFrom hp hfirst hne₀] at hwalk
      rw [hp]
      simp only [bind, Except.bind, load_of_lookup hfirst, hne₀, hwalk, load_of_lookup hca,
        load_of_lookup hcb]
      refine ⟨_, rfl, ⟨_, hp ▸ (hs.bypass hcb hca).1, ?_⟩, congrArg (· - 1) h.length⟩
      simp only [List.map_append, List.map_cons, List.map_nil, List.append_assoc,
        List.cons_append, List.nil_append]
  · rw [TopicDB.deleteTopic_of_notMem hmem]
    refine ⟨s, ?_, h⟩
    rw [deleteTopic, if_neg hne]
    by_cases hnil : l = []
    · rw [hnil] at hs
      rw [segment_nil_iff.1 hs]
    · obtain ⟨a, first, hp, hfirst, hfalse⟩ := exists_first_node hs hnil hl hne
      have hwalk := walkFrom_of_notMem hs hl hne
      rw [← walkTo_eq_walkFrom hp hfirst hfalse] at hwalk
      rw [hp]
      simp only [bind, Except.bind, load_of_lookup hfirst, hfalse, hwalk]
      rfl

/-- The new node is the last one; a node with the path gets the new expiry. -/
theorem addTopic_agrees (m : Malloc) (path : CStr) (topicMa : ℤ) :
    Agrees (s.addTopic m path topicMa) (db.addTopic path topicMa) := by
  rw [addTopic, TopicDB.addTopic]
  by_cases hne : path = CStr.empty
  · rw [if_pos hne, if_pos hne]
    exact ⟨s, rfl, h⟩
  rw [if_neg hne, if_neg hne]
  have hstop : ∀ y : TopicData, stringEqual path y.path = decide (y.path = path) :=
    fun _ => stringEqual_eq_left hne
  rcases represents_cases h path with ⟨l₁, a, t, l₂, hat, hnodes, hmem⟩ | ⟨l, hs, hnodes, hl, hmem⟩
  · obtain ⟨c, hc, rfl⟩ := hat.exists_cell
    have heq : stringEqual path c.val.path = true := by
      rw [hstop]
      exact decide_eq_true hat.key_eq
    obtain ⟨hs', hl'⟩ := hat.store hc fun t => { t with topicMa }
    rw [if_pos hmem]
    simp only [bind, Except.bind, hat.walk hstop le_rfl]
    rcases lastPtr none l₁ with _ | b
    all_goals
      simp only [load_of_lookup hc, heq, if_true, updateTopic, bind, Except.bind]
      refine ⟨_, rfl, ⟨_, hs', ?_⟩, h.length⟩
      rw [hl', TopicDB.modify, hnodes]
  · have hfresh := m.lookup_ptr s.heap
    rw [if_neg hmem]
    simp only [bind, Except.bind, walk_notMem hs hl hstop le_rfl]
    rcases List.eq_nil_or_concat' l with rfl | ⟨l, ⟨b, y⟩, rfl⟩
    · -- the list is empty
      have hp := segment_nil_iff.1 hs
      refine ⟨_, rfl, ⟨_, .cons (Finmap.lookup_insert s.heap) (segment_nil_iff.2 hp), ?_⟩,
        congrArg (· + 1) h.length⟩
      rw [← hnodes]
      rfl
    · obtain ⟨cb, hb, -⟩ := hs.split
      have hab : b ≠ m.ptr s.heap.keys := fun heq => by rw [← heq, hb] at hfresh; cases hfresh
      rw [lastPtr_concat]
      simp only [load_of_lookup ((Finmap.lookup_insert_of_ne s.heap hab).trans hb)]
      refine ⟨_, rfl, ⟨_, hs.link hfresh hb _, ?_⟩, congrArg (· + 1) h.length⟩
      rw [← hnodes]
      simp only [List.map_append, List.map_cons, List.map_nil, List.append_assoc,
        List.cons_append, List.nil_append]

end

end Nodes

end CoapBroker.Cpp
