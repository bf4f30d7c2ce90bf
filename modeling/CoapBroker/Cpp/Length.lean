import CoapBroker.Cpp.Nodes
import CoapBroker.Lib.Run

/-!
# The counter of the topic store

The functions of the class `TopicDB`, called in any order on a store that is empty at first
(`call`). The records can be changed through pointers to their nodes, those that have been taken
out or copied included.

The counter `length_` and the pointer `sPtr` say twice whether there is a node. They agree as long
as the counter is the number of nodes (`Counted`), which every function keeps but `clean_db`: it
takes out all nodes and leaves the counter as it is. So the lookups read no missing node
exactly when it is called on empty stores only (`counter_exact_iff`).
-/

namespace CoapBroker.Cpp.Nodes

open PtrList

/-! ## The functions -/

/-- `TopicDB()`. -/
def new : Nodes := ⟨∅, none, 0⟩

/-- `get_length`. -/
def getLength (s : Nodes) : ℤ := s.length

/-- `get_head`. -/
def getHead (s : Nodes) : Ptr := s.sPtr

/-- `is_empty`. -/
def isEmpty (s : Nodes) : Bool := s.sPtr.isNone

/-- `topic_exist`. -/
def topicExist (m : Malloc) (s : Nodes) (path : CStr) : Except HeapFault (Nodes × Bool) := do
  let (s, topic) ← s.copyTopic m path
  .ok (s, topic.isSome)

/-- `clean_db`: `sPtr` goes through the nodes to the end. -/
def cleanDb (s : Nodes) : Except HeapFault Nodes := do
  let (_, sPtr) ← walk s.heap (fun _ => false) s.heap.keys.card none s.sPtr
  .ok { s with sPtr }

/-- The calls. -/
inductive Call
  | addTopic (path : CStr) (topicMa : ℤ)
  | deleteTopic (path : CStr)
  | cleanDb
  | copyTopic (path : CStr)
  | getTopic (path : CStr)
  | topicExist (path : CStr)
  | isEmpty
  | getLength
  | getHead
  /-- Changing the record of a node, through a pointer to it. -/
  | updateTopic (topic : ℕ) (update : TopicData → TopicData)

/-- What the functions return. -/
inductive Reply
  | void
  | flag (b : Bool)
  | number (n : ℤ)
  | node (p : Ptr)

/-- A call. -/
def call (m : Malloc) (s : Nodes) : Call → Except HeapFault (Nodes × Reply)
  | .addTopic path topicMa => (s.addTopic m path topicMa).map fun (s, b) => (s, .flag b)
  | .deleteTopic path => (s.deleteTopic path).map fun (s, b) => (s, .flag b)
  | .cleanDb => s.cleanDb.map fun s => (s, .void)
  | .copyTopic path => (s.copyTopic m path).map fun (s, p) => (s, .node p)
  | .getTopic path => (s.getTopic path).map fun p => (s, .node p)
  | .topicExist path => (s.topicExist m path).map fun (s, b) => (s, .flag b)
  | .isEmpty => .ok (s, .flag s.isEmpty)
  | .getLength => .ok (s, .number s.getLength)
  | .getHead => .ok (s, .node s.getHead)
  | .updateTopic topic update =>
    (s.updateTopic (some topic) update).map fun (s, b) => (s, .flag b)

/-! ## The number of nodes -/

/-- The counter is the number of nodes that can be reached from `sPtr`. -/
def Counted (s : Nodes) : Prop := ∃ l, Segment s.heap s.sPtr l none ∧ s.length = l.length

variable {m : Malloc} {s s' : Nodes} {db : TopicDB} {path : CStr}

/-- The nodes are those of a store with an exact counter. -/
theorem counted_iff : s.Counted ↔ ∃ db, s.Represents db ∧ db.length = db.nodes.length := by
  constructor
  · rintro ⟨l, hs, hlen⟩
    exact ⟨⟨l.map Prod.snd, s.length⟩, ⟨⟨l, hs, rfl⟩, rfl⟩, by rw [hlen, List.length_map]⟩
  · rintro ⟨db, ⟨⟨l, hs, hl⟩, hlen⟩, hexact⟩
    exact ⟨l, hs, by rw [hlen, hexact, ← hl, List.length_map]⟩

theorem Agrees.counted {run : Except HeapFault (Nodes × Bool)} {res : TopicDB × Bool} {b : Bool}
    (h : Agrees run res) (hlen : res.1.length = res.1.nodes.length) (hrun : run = .ok (s', b)) :
    s'.Counted := by
  obtain ⟨s, hs, hrep⟩ := h
  obtain rfl := (Prod.mk.inj (Except.ok.inj (hs.symm.trans hrun))).1
  exact counted_iff.2 ⟨res.1, hrep, hlen⟩

/-- With an exact counter, a lookup reads no missing node. -/
theorem Counted.getTopic (h : s.Counted) (path : CStr) :
    ∃ p, s.getTopic path = .ok p ∧ ∀ a ∈ p, ∃ c, s.heap.lookup a = some c := by
  obtain ⟨db, hrep, hlen⟩ := counted_iff.1 h
  by_cases hne : path = CStr.empty
  · exact ⟨none, if_pos (.inl hne), fun a ha => absurd ha (by simp)⟩
  rcases represents_cases hrep path with ⟨l₁, a, t, l₂, hat, -, -⟩ | ⟨l, hs, -, hl, -⟩
  · obtain ⟨c, hc, -⟩ := hat.exists_cell
    refine ⟨some a, getTopic_of_at hrep hlen hat hne, ?_⟩
    rintro _ ⟨⟩
    exact ⟨c, hc⟩
  · exact ⟨none, getTopic_of_notMem hrep hlen hs hl, fun a ha => absurd ha (by simp)⟩

/-- A copy is no node of the list. -/
theorem Counted.copyTopic (h : s.Counted) (m : Malloc) (path : CStr) :
    ∃ s' p, s.copyTopic m path = .ok (s', p) ∧ s'.Counted := by
  obtain ⟨p, hp, hcell⟩ := h.getTopic path
  rw [Nodes.copyTopic, hp]
  rcases p with _ | a
  · exact ⟨s, none, rfl, h⟩
  · obtain ⟨c, hc⟩ := hcell a rfl
    simp only [bind, Except.bind, load_of_lookup hc]
    obtain ⟨l, hs, hlen⟩ := h
    have hfresh : m.ptr s.heap.keys ∉ l.map Prod.fst := fun hmem => m.fresh _ (hs.mem_keys _ hmem)
    exact ⟨_, _, rfl, l, hs.insert_of_notMem hfresh c, hlen⟩

/-- Changing a record changes no pointer, whether its node is in the list or not. -/
theorem Counted.updateTopic (h : s.Counted) {topic : ℕ} {update : TopicData → TopicData} {b : Bool}
    (hrun : s.updateTopic (some topic) update = .ok (s', b)) : s'.Counted := by
  obtain ⟨l, hs, hlen⟩ := h
  rw [Nodes.updateTopic] at hrun
  rcases hc : s.heap.lookup topic with _ | c
  · rw [load, hc] at hrun
    cases hrun
  rw [load_of_lookup hc] at hrun
  cases hrun
  by_cases hmem : topic ∈ l.map Prod.fst
  · obtain ⟨⟨a, t⟩, ht, rfl⟩ := List.mem_map.1 hmem
    obtain ⟨l₁, l₂, rfl⟩ := List.append_of_mem ht
    refine ⟨_, hs.store hc (update c.val), ?_⟩
    rw [hlen, List.length_append, List.length_append, List.length_cons, List.length_cons]
  · exact ⟨l, hs.insert_of_notMem hmem _, hlen⟩

/-- After `clean_db`, the counter is exact only if there were no nodes. -/
theorem Counted.cleanDb (h : s.Counted) :
    ∃ s', s.cleanDb = .ok s' ∧ s'.sPtr = none ∧ s'.length = s.length ∧
      (s'.Counted ↔ s.isEmpty) := by
  obtain ⟨db, hrep, hexact⟩ := counted_iff.1 h
  have hzero := hrep.sPtr_eq_none hexact
  obtain ⟨l, hs, hlen⟩ := h
  have hwalk : walk s.heap (fun _ => false) s.heap.keys.card none s.sPtr =
      .ok (lastPtr none l, none) :=
    walk_end hs (fun _ _ => rfl) hs.length_le
  refine ⟨{ s with sPtr := none }, ?_, rfl, rfl, ?_⟩
  · rw [Nodes.cleanDb, hwalk]
    rfl
  · rw [isEmpty, Option.isNone_iff_eq_none, ← hzero]
    constructor
    · rintro ⟨l', hs', hlen'⟩
      obtain rfl : l' = [] := hs'.unique .nil
      exact hlen'
    · exact fun h0 => ⟨[], .nil, h0⟩

/-- Every other call keeps the counter exact. -/
theorem Counted.call (h : s.Counted) {e : Call} {o : Reply} (hcall : call m s e = .ok (s', o))
    (he : e ≠ .cleanDb) : s'.Counted := by
  obtain ⟨db, hrep, hlen⟩ := counted_iff.1 h
  -- a call keeps the count, with the store that the nodes stand for
  cases e with
  | addTopic path topicMa =>
    obtain ⟨s₁, hrun, hrep'⟩ := addTopic_agrees hrep m path topicMa
    rw [Nodes.call, hrun] at hcall
    cases hcall
    exact counted_iff.2 ⟨_, hrep', TopicDB.length_addTopic hlen path topicMa⟩
  | deleteTopic path =>
    obtain ⟨s₁, hrun, hrep'⟩ := deleteTopic_agrees hrep path
    rw [Nodes.call, hrun] at hcall
    cases hcall
    exact counted_iff.2 ⟨_, hrep', TopicDB.length_deleteTopic hlen path⟩
  | cleanDb => exact absurd rfl he
  | copyTopic path =>
    obtain ⟨s₁, p, hrun, hs₁⟩ := h.copyTopic m path
    rw [Nodes.call, hrun] at hcall
    cases hcall
    exact hs₁
  | getTopic path =>
    obtain ⟨p, hrun, -⟩ := h.getTopic path
    rw [Nodes.call, hrun] at hcall
    cases hcall
    exact h
  | topicExist path =>
    obtain ⟨s₁, p, hrun, hs₁⟩ := h.copyTopic m path
    rw [Nodes.call, topicExist, hrun] at hcall
    cases hcall
    exact hs₁
  | isEmpty | getLength | getHead =>
    cases hcall
    exact h
  | updateTopic topic update =>
    rcases hrun : s.updateTopic (some topic) update with f | ⟨s₁, b⟩ <;>
      rw [Nodes.call, hrun] at hcall
    · cases hcall
    · cases hcall
      exact h.updateTopic hrun

/-! ## Runs -/

/-- The counter is exact, it is `0` exactly in an empty store, and no lookup reads a missing
    node. -/
structure Sound (s : Nodes) : Prop where
  counted : s.Counted
  isEmpty_iff : s.isEmpty ↔ s.getLength = 0
  getTopic : ∀ path, ∃ p, s.getTopic path = .ok p
  copyTopic : ∀ m path, ∃ r, s.copyTopic m path = .ok r

theorem Counted.sound (h : s.Counted) : s.Sound where
  counted := h
  isEmpty_iff := by
    obtain ⟨db, hrep, hlen⟩ := counted_iff.1 h
    rw [isEmpty, Option.isNone_iff_eq_none, getLength, hrep.sPtr_eq_none hlen]
  getTopic path := by
    obtain ⟨p, hp, -⟩ := h.getTopic path
    exact ⟨p, hp⟩
  copyTopic m path := by
    obtain ⟨s', p, hp, -⟩ := h.copyTopic m path
    exact ⟨(s', p), hp⟩

theorem counted_new : new.Counted := ⟨[], .nil, rfl⟩

/-- In a run of calls, the counter is exact in every state, and no lookup can fail there, exactly
    if `clean_db` is called on empty stores only. -/
theorem counter_exact_iff (m : Malloc) {tr : List (Transition Nodes Call Reply)}
    (h : Run (call m) new tr s) :
    (∀ x ∈ tr, x.dst.Sound) ↔ ∀ x ∈ tr, x.ev = .cleanDb → x.src.isEmpty := by
  refine h.forall_dst_iff (I := fun _ => True) (C := fun s e => e = .cleanDb → s.isEmpty) trivial
    counted_new.sound fun s e o s' _ hcall => ⟨trivial, fun hs => ?_⟩
  by_cases he : e = .cleanDb
  · obtain ⟨s₁, hrun, -, -, hiff⟩ := hs.counted.cleanDb
    rw [he, call, hrun] at hcall
    cases hcall
    rw [forall_prop_of_true he, ← hiff]
    exact ⟨Sound.counted, Counted.sound⟩
  · exact iff_of_true (hs.counted.call hcall he).sound fun h => absurd h he

/-- A topic is added, the store is cleaned, and the topic is looked up. -/
theorem lookup_after_clean :
    ∃ s, execRun (call .above) new [.addTopic (CStr.lit "a") 0, .cleanDb] = .ok s ∧
      s.isEmpty ∧ s.getLength = 1 ∧ s.getTopic (CStr.lit "a") = .error .dangling ∧ ¬s.Sound := by
  obtain ⟨s, hs, hempty, hlen, hget⟩ : ∃ s,
      execRun (call .above) new [.addTopic (CStr.lit "a") 0, .cleanDb] = .ok s ∧
      s.isEmpty ∧ s.getLength = 1 ∧ s.getTopic (CStr.lit "a") = .error .dangling :=
    ⟨_, rfl, rfl, rfl, rfl⟩
  refine ⟨s, hs, hempty, hlen, hget, fun hsound => ?_⟩
  obtain ⟨p, hp⟩ := hsound.getTopic (CStr.lit "a")
  rw [hget] at hp
  cases hp

/-- A topic is added and deleted before the store is cleaned. -/
theorem counter_exact_deleted :
    ∃ tr s, Run (call .above) new tr s ∧
      tr.map Transition.ev = [.addTopic (CStr.lit "a") 0, .deleteTopic (CStr.lit "a"), .cleanDb] ∧
      ∀ x ∈ tr, x.dst.Sound := by
  obtain ⟨tr, s, hexec, hclean⟩ : ∃ tr s, execTrace (call .above) new
      [.addTopic (CStr.lit "a") 0, .deleteTopic (CStr.lit "a"), .cleanDb] = .ok (tr, s) ∧
      ∀ x ∈ tr, x.ev = .cleanDb → x.src.isEmpty := by
    refine ⟨_, _, rfl, ?_⟩
    rintro x (_ | ⟨_, _ | ⟨_, _ | ⟨_, hx⟩⟩⟩) hev
    · cases hev
    · cases hev
    · rfl
    · cases hx
  obtain ⟨hrun, hev⟩ := Run.of_execTrace (.nil : Run (call .above) new [] new) hexec
  exact ⟨tr, s, hrun, hev, (counter_exact_iff .above hrun).2 hclean⟩

end CoapBroker.Cpp.Nodes
