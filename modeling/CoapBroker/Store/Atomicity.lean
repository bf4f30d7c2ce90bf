import CoapBroker.Lib.Interleave
import CoapBroker.Store.Threads

/-!
# The calls of a thread that runs alone

On a list (`Memory.Lists`), a call on its own does what the function of the store does, and
writes at one step only, its last (`runs_start`). Before that it is in a state that fits the list
(`Valid`): a node it points to is there, and a field it has read is as it was. The step that
writes changes the first node with the path, or links a new one to the last (`Effect`).
-/

namespace CoapBroker

namespace Threads

open PtrList Interleave

/-! ## Lists in memory -/

/-- The path of a node. -/
def place (c : ℕ × Node) : CStr := c.2.path

/-- The first node with a path. -/
abbrev findNode (l : List (ℕ × Node)) (path : CStr) : Option (ℕ × Node) :=
  Keyed.find place l path

/-- What the nodes hold. -/
def records (l : List (ℕ × Node)) : TopicDB := l.map fun c => c.2.record

/-- The strings the nodes point to. -/
def strings (l : List (ℕ × Node)) : List ℕ := l.filterMap fun c => c.2.data.map Str.addr

/-- The nodes and their paths. -/
def frame (l : List (ℕ × Node)) : List (ℕ × CStr) := l.map fun c => (c.1, c.2.path)

/-- The nodes are in the memory, and each has its data for itself. -/
structure Memory.Lists (mem : Memory) (l : List (ℕ × Node)) : Prop where
  segment : Segment mem.heap mem.sPtr l none
  nodup : (strings l).Nodup
  live : ∀ s ∈ strings l, s < mem.brk ∧ s ∉ mem.freed
  freed_lt : ∀ s ∈ mem.freed, s < mem.brk

/-- The memory is a list of records. -/
def Memory.Represents (mem : Memory) (db : TopicDB) : Prop := ∃ l, mem.Lists l ∧ records l = db

variable {m : Malloc} {mem mem' : Memory} {l l' l₁ l₂ : List (ℕ × Node)} {a : ℕ} {x y : Node}
  {path : CStr} {caller : Caller} {t : Thread} {V : Thread → Prop} {C : Memory → Prop}

theorem load_of_lookup {c : Cell Node} (hc : mem.heap.lookup a = some c) :
    mem.load a = .ok c := by
  rw [Memory.load, hc]

/-- The records are found where the nodes are. -/
theorem getTopic_records (l : List (ℕ × Node)) (path : CStr) :
    (records l).getTopic path = (findNode l path).map fun c => c.2.record :=
  Keyed.find_map fun _ => rfl

theorem paths_records (l : List (ℕ × Node)) : (records l).paths = l.map place :=
  List.map_map

theorem records_append_cons (l₁ : List (ℕ × Node)) (a : ℕ) (x : Node) (l₂ : List (ℕ × Node)) :
    records (l₁ ++ (a, x) :: l₂) = records l₁ ++ x.record :: records l₂ :=
  List.map_append

theorem find_frame (l : List (ℕ × Node)) (path : CStr) :
    Keyed.find Prod.snd (frame l) path = (findNode l path).map fun c => (c.1, c.2.path) :=
  Keyed.find_map fun _ => rfl

/-- The cell of a node. -/
theorem Memory.Lists.cell (hl : mem.Lists (l₁ ++ (a, x) :: l₂)) :
    ∃ c, mem.heap.lookup a = some c ∧ c.val = x :=
  let ⟨c, hc, hx, _⟩ := hl.segment.split
  ⟨c, hc, hx⟩

/-- A node in the middle points to the next one. -/
theorem Memory.Lists.next {k₁ k₂ : List (ℕ × CStr)} {q : CStr} (hl : mem.Lists l)
    (hk : frame l = k₁ ++ (a, q) :: k₂) :
    ∃ c, mem.heap.lookup a = some c ∧ c.val.path = q ∧ c.nextPtr = k₂.head?.map Prod.fst := by
  obtain ⟨l₁, l₃, rfl, -, hl₃⟩ := List.map_eq_append_iff.1 hk
  obtain ⟨⟨b, x⟩, l₂, rfl, hb, rfl⟩ := List.map_eq_cons_iff.1 hl₃
  obtain ⟨rfl, rfl⟩ := Prod.mk.inj hb
  obtain ⟨c, hc, rfl, -, hs, -⟩ := hl.segment.split
  refine ⟨c, hc, rfl, hs.ptr_eq.trans ?_⟩
  rw [List.head?_map, Option.map_map]
  rfl

/-- The first node. -/
theorem Memory.Lists.sPtr (hl : mem.Lists l) : mem.sPtr = (frame l).head?.map Prod.fst := by
  rw [hl.segment.ptr_eq, frame, List.head?_map, Option.map_map]
  rfl

theorem strings_append (l₁ l₂ : List (ℕ × Node)) :
    strings (l₁ ++ l₂) = strings l₁ ++ strings l₂ :=
  List.filterMap_append

theorem strings_cons (a : ℕ) (x : Node) (l : List (ℕ × Node)) :
    strings ((a, x) :: l) = (x.data.map Str.addr).toList ++ strings l := by
  rw [strings, List.filterMap_cons]
  cases h : x.data <;> rfl

/-- The data of a node has not been freed. -/
theorem Memory.Lists.notMem_freed (hl : mem.Lists (l₁ ++ (a, x) :: l₂)) {s : Str}
    (hs : x.data = some s) : s.addr ∉ mem.freed := by
  refine (hl.live s.addr ?_).2
  rw [strings_append, strings_cons, hs]
  simp

/-- Writing to a node, with new data or none, whether the old data is freed or not. -/
theorem Memory.Lists.store (hl : mem.Lists (l₁ ++ (a, x) :: l₂)) {c : Cell Node}
    (hc : mem.heap.lookup a = some c) {freed : Finset ℕ} {brk : ℕ} (hbrk : mem.brk ≤ brk)
    (hfreed : ∀ s ∈ freed, s ∈ mem.freed ∨ ∃ s', x.data = some s' ∧ s'.addr = s)
    (hy : ∀ s, y.data = some s → s.addr = mem.brk ∧ mem.brk < brk) :
    ({ mem with freed, brk }.store a c y).Lists (l₁ ++ (a, y) :: l₂) := by
  obtain ⟨hs, hnodup, hlive, hlt⟩ := hl
  rw [strings_append, strings_cons] at hnodup hlive
  have hold : ∀ s ∈ freed, s < mem.brk := by
    intro s hmem
    rcases hfreed s hmem with h | ⟨s', hx, rfl⟩
    · exact hlt s h
    · exact (hlive s'.addr (by simp [hx])).1
  -- the strings of the other nodes
  have hrest : ∀ s ∈ strings l₁ ++ strings l₂, s < mem.brk ∧ s ∉ freed := by
    intro s hmem
    rw [List.mem_append] at hmem
    have hl := hlive s (by rcases hmem with h | h <;> simp [h])
    refine ⟨hl.1, fun hf => ?_⟩
    rcases hfreed s hf with h | ⟨s', hx, rfl⟩
    · exact hl.2 h
    · rw [hx] at hnodup
      simp only [Option.map_some, Option.toList_some, List.singleton_append, List.nodup_append,
        List.nodup_cons] at hnodup
      rcases hmem with h | h
      · exact hnodup.2.2 _ h _ List.mem_cons_self rfl
      · exact hnodup.2.1.1 h
  have hsub : (strings l₁ ++ strings l₂).Nodup :=
    hnodup.sublist ((List.Sublist.refl _).append (List.sublist_append_right _ _))
  refine ⟨hs.store hc y, ?_, ?_, fun s hmem => (hold s hmem).trans_le hbrk⟩
  · rw [strings_append, strings_cons]
    cases hd : y.data with
    | none => exact hsub
    | some s =>
      have hnew : s.addr ∉ strings l₁ ++ strings l₂ := fun h =>
        absurd (hrest _ h).1 (by rw [(hy s hd).1]; exact lt_irrefl _)
      exact List.nodup_middle.2 (List.nodup_cons.2 ⟨hnew, hsub⟩)
  · intro s hmem
    rw [strings_append, strings_cons, List.mem_append, List.mem_append] at hmem
    rcases hmem with h | h | h
    · have hr := hrest s (List.mem_append_left _ h)
      exact ⟨hr.1.trans_le hbrk, hr.2⟩
    · rw [Option.mem_toList, Option.map_eq_some_iff] at h
      obtain ⟨s', hd, rfl⟩ := h
      rw [(hy s' hd).1]
      exact ⟨(hy s' hd).2, fun hf => lt_irrefl _ (hold _ hf)⟩
    · have hr := hrest s (List.mem_append_right _ h)
      exact ⟨hr.1.trans_le hbrk, hr.2⟩

/-! ## Looking for a path -/

/-- `getTopic` is at a node, and none before has the path. -/
inductive Searching (l : List (ℕ × Node)) (caller : Caller) : Thread → Prop
  | getTopic : Searching l caller (.getTopic caller)
  | getFirst : l ≠ [] → Searching l caller (.getFirst caller)
  | getNext {k₁ k₂ : List (ℕ × CStr)} {a : ℕ} {q : CStr} :
    frame l = k₁ ++ (a, q) :: k₂ → caller.path ∉ k₁.map Prod.snd →
    Searching l caller (.getNext caller a)

/-- The result of `getTopic`. -/
def found (l : List (ℕ × Node)) (path : CStr) : Ptr := (findNode l path).map Prod.fst

theorem found_eq (l : List (ℕ × Node)) (path : CStr) :
    found l path = (Keyed.find Prod.snd (frame l) path).map Prod.fst := by
  rw [find_frame, Option.map_map]
  rfl

theorem Searching.not_done (h : Searching l caller t) : ¬t.Done := by
  rintro ⟨result, rfl⟩
  cases h

/-- The section of a node, when none before has the path. -/
theorem getSection_eq {k₁ k₂ : List (ℕ × CStr)} {q : CStr} (hl : mem.Lists l)
    (hk : frame l = k₁ ++ (a, q) :: k₂) (hk₁ : caller.path ∉ k₁.map Prod.snd) :
    getSection mem caller a = .ok
      (if q = caller.path then caller.returned (found l caller.path)
      else match k₂ with
        | [] => caller.returned (found l caller.path)
        | (b, _) :: _ => .getNext caller b) := by
  obtain ⟨c, hc, rfl, hnext⟩ := hl.next hk
  have hfind : found l caller.path =
      (Keyed.find Prod.snd ((a, c.val.path) :: k₂) caller.path).map Prod.fst := by
    rw [found_eq, hk, Keyed.find_append_of_notMem hk₁]
  rw [getSection, load_of_lookup hc]
  simp only [bind, Except.bind, compareString, decide_eq_true_eq]
  rw [hfind, Keyed.find_cons]
  by_cases hq : c.val.path = caller.path
  · rw [if_pos hq, if_pos hq, if_pos hq]
    rfl
  · rw [if_neg hq, if_neg hq, if_neg hq, hnext]
    rcases k₂ with _ | ⟨⟨b, r⟩, k₂⟩ <;> rfl

/-- From the section of a node on, whether it is the first or one of the loop. -/
theorem silent_section {k₁ k₂ : List (ℕ × CStr)} {q : CStr} (hl : mem.Lists l)
    (hk : frame l = k₁ ++ (a, q) :: k₂) (hk₁ : caller.path ∉ k₁.map Prod.snd)
    (ht : Searching l caller t)
    (hstep : step m mem t = (getSection mem caller a).map fun t => (mem, t)) :
    Silent (step m) Thread.Done mem (Searching l caller) t
      (caller.returned (found l caller.path)) := by
  induction k₂ generalizing k₁ a q t with
  | nil =>
    refine .head ht ht.not_done ?_ .refl
    rw [hstep, getSection_eq hl hk hk₁]
    simp only [ite_self]
    rfl
  | cons c k₂ ih =>
    rw [getSection_eq hl hk hk₁] at hstep
    by_cases hq : q = caller.path
    · rw [if_pos hq] at hstep
      exact .head ht ht.not_done hstep .refl
    · rw [if_neg hq] at hstep
      have hk' : frame l = (k₁ ++ [(a, q)]) ++ (c.1, c.2) :: k₂ := by simpa using hk
      have hk₁' : caller.path ∉ (k₁ ++ [(a, q)]).map Prod.snd := by
        simpa using ⟨by simpa using hk₁, Ne.symm hq⟩
      exact .head ht ht.not_done hstep (ih hk' hk₁' (.getNext hk' hk₁') rfl)

/-- `getTopic` comes to the first node with the path, or to the end. -/
theorem Searching.silent (hl : mem.Lists l) (h : Searching l caller t) :
    Silent (step m) Thread.Done mem (Searching l caller) t
      (caller.returned (found l caller.path)) := by
  have hfirst : l ≠ [] → Silent (step m) Thread.Done mem (Searching l caller)
      (.getFirst caller) (caller.returned (found l caller.path)) := by
    intro hne
    obtain ⟨⟨a, x⟩, l', rfl⟩ := List.exists_cons_of_ne_nil hne
    have hk : frame ((a, x) :: l') = [] ++ (a, x.path) :: frame l' := rfl
    refine silent_section hl hk List.not_mem_nil (.getFirst hne) ?_
    rw [step, hl.sPtr]
    rfl
  have hbegin : Searching l caller (.getTopic caller) := .getTopic
  cases h with
  | getNext hk hk₁ => exact silent_section hl hk hk₁ (.getNext hk hk₁) rfl
  | getFirst hne => exact hfirst hne
  | getTopic =>
    rcases l with _ | ⟨c, l'⟩
    · refine Silent.head hbegin hbegin.not_done ?_ .refl
      rw [step, hl.sPtr]
      rfl
    · refine Silent.head hbegin hbegin.not_done ?_ (hfirst (List.cons_ne_nil c l'))
      rw [step, hl.sPtr]
      rfl

/-! ## What a call does to the list -/

/-- What the step of a call that writes does: nothing, writing to the first node with the path,
    or linking a new node to the last one. -/
inductive Effect (c : Call) (mem' : Memory) : List (ℕ × Node) → List (ℕ × Node) → Prop
  | skip {l : List (ℕ × Node)} : findNode l c.path = none → ¬c.Inserts (records l) →
    Effect c mem' l l
  | write {l₁ l₂ : List (ℕ × Node)} {a : ℕ} {x y : Node} :
    c.path ∉ l₁.map place → x.path = c.path → y.record = c.apply x.record →
    -- new data takes the place of the old one, which is freed
    (∀ s, x.data = some s → y.data.isSome → s.addr ∈ mem'.freed) →
    Effect c mem' (l₁ ++ (a, x) :: l₂) (l₁ ++ (a, y) :: l₂)
  | append {l : List (ℕ × Node)} {a : ℕ} {path : CStr} {topicMa : ℤ} :
    c = .addTopicWEC path topicMa → 0 < path.length → findNode l path = none →
    Effect c mem' l (l ++ [(a, newNode path topicMa)])

/-- A call has written. -/
def Committed (c : Call) (l : List (ℕ × Node)) (mem' : Memory) : Prop :=
  ∃ l', mem'.Lists l' ∧ Effect c mem' l l'

theorem findNode_eq_none : findNode l path = none ↔ (records l).getTopic path = none := by
  rw [getTopic_records, Option.map_eq_none_iff]

/-- The records are what the call on its own makes of them. -/
theorem Effect.records_eq {c : Call} (h : Effect c mem' l l') : records l' = c.run (records l) := by
  cases h with
  | skip hfind hc => exact (Call.run_of_none (findNode_eq_none.1 hfind) hc).symm
  | @write l₁ l₂ a x y hl₁ hx hy _ =>
    rw [records_append_cons, records_append_cons,
      Call.run_append_cons (paths_records l₁ ▸ hl₁) hx, hy]
  | append hc hlen hfind =>
    subst hc
    rw [Call.run_of_inserts (findNode_eq_none.1 hfind) hlen]
    exact List.map_append

/-- The node that is found, among the others. -/
theorem exists_split (h : findNode l path = some (a, x)) :
    ∃ l₁ l₂, l = l₁ ++ (a, x) :: l₂ ∧ path ∉ l₁.map place ∧ x.path = path :=
  Keyed.exists_split_of_find h

theorem found_of_find (h : findNode l path = some (a, x)) : found l path = some a := by
  rw [found, h]
  rfl

/-- A call that finds its node. -/
theorem Searching.runs_found (h : Searching l caller t) (hl : mem.Lists l)
    (hfind : findNode l caller.path = some (a, x)) (hV : ∀ t, Searching l caller t → V t)
    (hret : Runs (step m) Thread.Done mem V C (caller.returned (some a))) :
    Runs (step m) Thread.Done mem V C t :=
  (h.silent hl).runs hV (found_of_find hfind ▸ hret)

/-- A call that does not. -/
theorem Searching.runs_none (h : Searching l caller t) (hl : mem.Lists l)
    (hfind : findNode l caller.path = none) (hV : ∀ t, Searching l caller t → V t)
    (hret : Runs (step m) Thread.Done mem V C (caller.returned none)) :
    Runs (step m) Thread.Done mem V C t := by
  have hnone : found l caller.path = none := by rw [found, hfind, Option.map_none]
  exact (h.silent hl).runs hV (hnone ▸ hret)

theorem Memory.Lists.load (hl : mem.Lists l) (h : findNode l path = some (a, x)) :
    ∃ c, mem.load a = .ok c ∧ c.val = x := by
  obtain ⟨l₁, l₂, rfl, -, -⟩ := exists_split h
  obtain ⟨c, hc, hx⟩ := hl.cell
  exact ⟨c, load_of_lookup hc, hx⟩

/-! ## Writing to a node -/

theorem free_eq (hl : mem.Lists (l₁ ++ (a, x) :: l₂)) :
    mem.free x.data = .ok { mem with freed := match x.data with
      | none => mem.freed
      | some s => insert s.addr mem.freed } := by
  cases hx : x.data with
  | none => rfl
  | some s =>
    rw [Memory.free]
    exact if_neg (hl.notMem_freed hx)

/-- What `free` adds to the freed strings. -/
theorem mem_freed_of_free {s : ℕ} (hs : s ∈ match x.data with
      | none => mem.freed
      | some s => insert s.addr mem.freed) :
    s ∈ mem.freed ∨ ∃ s', x.data = some s' ∧ s'.addr = s := by
  cases hx : x.data with
  | none =>
    rw [hx] at hs
    exact .inl hs
  | some s' =>
    rw [hx] at hs
    rcases Finset.mem_insert.1 hs with rfl | h
    · exact .inr ⟨s', rfl, rfl⟩
    · exact .inl h

/-- The section of `setTopic`. -/
theorem setTopicSection_ok (hl : mem.Lists (l₁ ++ (a, x) :: l₂)) {data : Data} {n : ℕ}
    {bytes : Option (List Byte)} (hread : data.source mem n = .ok bytes) (topicMa dataMa : ℤ) :
    ∃ mem' y, setTopicSection mem a data n topicMa dataMa = .ok mem' ∧
      mem'.Lists (l₁ ++ (a, y) :: l₂) ∧
      y.record = { x.record with
        data := bytes.map fun b => CStr.read (b.take n), topicMa, dataMa } ∧
      ∀ s, x.data = some s → y.data.isSome → s.addr ∈ mem'.freed := by
  obtain ⟨c, hc, rfl⟩ := hl.cell
  rw [setTopicSection, load_of_lookup hc]
  simp only [bind, Except.bind, hread]
  cases bytes with
  | none =>
    refine ⟨_, _, rfl, hl.store hc le_rfl (fun s hs => .inl hs) (fun s hs => ?_), rfl,
      fun s _ hs => ?_⟩
    · cases hs
    · cases hs
  | some b =>
    simp only [free_eq hl]
    refine ⟨_, _, rfl, hl.store hc (Nat.le_succ mem.brk) (fun s hs => mem_freed_of_free hs)
      (fun s hs => ?_), rfl, fun s hs _ => ?_⟩
    · cases hs
      exact ⟨rfl, Nat.lt_succ_self _⟩
    · simp only [Memory.store, hs]
      exact Finset.mem_insert_self _ _

/-- The section of `deleteTopicData`. -/
theorem deleteTopicDataSection_ok (hl : mem.Lists (l₁ ++ (a, x) :: l₂)) :
    ∃ mem' y, deleteTopicDataSection mem a = .ok mem' ∧ mem'.Lists (l₁ ++ (a, y) :: l₂) ∧
      y.record = { x.record with data := none, dataMa := 0 } ∧ y.data = none := by
  obtain ⟨c, hc, rfl⟩ := hl.cell
  rw [deleteTopicDataSection, load_of_lookup hc]
  simp only [bind, Except.bind, free_eq hl]
  refine ⟨_, _, rfl, hl.store hc le_rfl (fun s hs => mem_freed_of_free hs) (fun s hs => ?_),
    rfl, rfl⟩
  cases hs

/-- `setTopic` is at a node: of `getTopic`, or the one with the path. -/
inductive Setting (l : List (ℕ × Node)) (path : CStr) (data : Data) (dataSize : ℕ)
    (topicMa dataMa : ℤ) : Thread → Prop
  | searching {t : Thread} : Searching l (.setTopic path data dataSize topicMa dataMa) t →
    Setting l path data dataSize topicMa dataMa t
  | setSection {a : ℕ} {x : Node} : findNode l path = some (a, x) →
    Setting l path data dataSize topicMa dataMa (.setSection a data dataSize topicMa dataMa)

/-- `setTopic`, when all it writes is what the call is to write. -/
theorem Setting.runs {c : Call} {data : Data} {n : ℕ} {bytes : Option (List Byte)}
    {topicMa dataMa : ℤ} (h : Setting l c.path data n topicMa dataMa t) (hl : mem.Lists l)
    (hfind : findNode l c.path = some (a, x)) (hread : data.source mem n = .ok bytes)
    (happly : c.apply x.record = { x.record with
      data := bytes.map fun b => CStr.read (b.take n), topicMa, dataMa })
    (hV : ∀ t, Setting l c.path data n topicMa dataMa t → V t) :
    Runs (step m) Thread.Done mem V (Committed c l) t := by
  have hsection : Runs (step m) Thread.Done mem V (Committed c l)
      (.setSection a data n topicMa dataMa) := by
    obtain ⟨l₁, l₂, rfl, hl₁, hx⟩ := exists_split hfind
    obtain ⟨mem', y, hset, hl', hy, hfreed⟩ := setTopicSection_ok hl hread topicMa dataMa
    refine .commit (hV _ (.setSection hfind)) ?_ ?_ ⟨true, rfl⟩
      ⟨_, hl', .write hl₁ hx (hy.trans happly.symm) hfreed⟩
    · rintro ⟨result, hdone⟩
      cases hdone
    · rw [step, hset]
      rfl
  cases h with
  | searching h => exact h.runs_found hl hfind (fun t ht => hV t (.searching ht)) hsection
  | setSection hfind' =>
    cases hfind.symm.trans hfind'
    exact hsection

/-! ## The calls -/

/-- The `strlen` of data, `0` for `NULL`. -/
def dataLength : Option CStr → ℕ
  | none => 0
  | some d => d.length

theorem normData_eq_none {d : Option CStr} : TopicDB.normData d = none ↔ dataLength d = 0 := by
  cases d with
  | none => exact iff_of_true rfl rfl
  | some d =>
    have hlen : d.length = 0 ↔ d = CStr.empty :=
      ⟨fun h => CStr.ext (List.length_eq_zero_iff.1 h), fun h => h ▸ rfl⟩
    rw [TopicDB.normData, dataLength, hlen, Option.filter_eq_none_iff]
    simp

/-- Copying data of that length. -/
theorem copyData_dataLength (d : Option CStr) :
    copyData (d.map CStr.bytes) (dataLength d) = TopicDB.normData d := by
  cases d with
  | none => rfl
  | some d => exact TopicDB.copyData_self (some d)

/-- `updateTopicInfo` is looking for the path, or has read fields of the node. -/
inductive UpdatingInfo (l : List (ℕ × Node)) (path : CStr) (topicMa : ℤ) : Thread → Prop
  | searching {t : Thread} : Searching l (.updateTopicInfo path topicMa) t →
    UpdatingInfo l path topicMa t
  | infoTest {a : ℕ} {x : Node} : findNode l path = some (a, x) →
    UpdatingInfo l path topicMa (.infoTest path topicMa a)
  | infoLength {a : ℕ} {x : Node} : findNode l path = some (a, x) → x.data.isSome →
    UpdatingInfo l path topicMa (.infoLength path topicMa a)
  | infoData {a n : ℕ} {x : Node} : findNode l path = some (a, x) → n = dataLength x.record.data →
    UpdatingInfo l path topicMa (.infoData path topicMa a n)
  | infoMa {a n : ℕ} {x : Node} {d : Option Str} : findNode l path = some (a, x) →
    n = dataLength x.record.data → n = 0 ∨ d = x.data →
    UpdatingInfo l path topicMa (.infoMa path topicMa a n d)
  | setting {a n : ℕ} {x : Node} {d : Option Str} {dataMa : ℤ} {t : Thread} :
    findNode l path = some (a, x) → n = dataLength x.record.data → n = 0 ∨ d = x.data →
    dataMa = x.dataMa → Setting l path (.ptr d) n topicMa dataMa t → UpdatingInfo l path topicMa t

/-- `updateTopicData` is looking for the path, or has read a field of the node. -/
inductive UpdatingData (l : List (ℕ × Node)) (path : CStr) (dataMa : ℤ)
    (data : Option (List Byte)) (dataSize : ℕ) : Thread → Prop
  | searching {t : Thread} : Searching l (.updateTopicData path dataMa data dataSize) t →
    UpdatingData l path dataMa data dataSize t
  | dataMa {a : ℕ} {x : Node} : findNode l path = some (a, x) →
    UpdatingData l path dataMa data dataSize (.dataMa path dataMa data dataSize a)
  | setting {a : ℕ} {x : Node} {topicMa : ℤ} {t : Thread} : findNode l path = some (a, x) →
    topicMa = x.topicMa → Setting l path (.buf data) dataSize topicMa dataMa t →
    UpdatingData l path dataMa data dataSize t

/-- `deleteTopicData` is looking for the path, or has found it. -/
inductive DeletingData (l : List (ℕ × Node)) (path : CStr) : Thread → Prop
  | searching {t : Thread} : Searching l (.deleteTopicData path) t → DeletingData l path t
  | deleteSection {a : ℕ} {x : Node} : findNode l path = some (a, x) →
    DeletingData l path (.deleteSection a)

/-- `addTopic` is on its way to the last node. -/
inductive Adding (l : List (ℕ × Node)) (path : CStr) (topicMa : ℤ) : Thread → Prop
  | addFirst : Adding l path topicMa (.addFirst path topicMa)
  | addNext {k₁ k₂ : List (ℕ × CStr)} {a : ℕ} {q : CStr} : frame l = k₁ ++ (a, q) :: k₂ →
    Adding l path topicMa (.addNext path topicMa a)
  | addSection {k : List (ℕ × CStr)} {a : ℕ} {q : CStr} : frame l = k ++ [(a, q)] →
    Adding l path topicMa (.addSection path topicMa a)
  | addHeadNext : l = [] → Adding l path topicMa (.addHeadNext path topicMa)
  | addHead : l = [] → Adding l path topicMa (.addHead path topicMa none)

/-- A call is in a state that fits the list. -/
inductive Valid (l : List (ℕ × Node)) : Call → Thread → Prop
  | searching {path : CStr} {topicMa : ℤ} {t : Thread} :
    Searching l (.addTopicWEC path topicMa) t → Valid l (.addTopicWEC path topicMa) t
  | adding {path : CStr} {topicMa : ℤ} {t : Thread} : findNode l path = none →
    0 < path.length → Adding l path topicMa t → Valid l (.addTopicWEC path topicMa) t
  | addTopicWEC {path : CStr} {topicMa : ℤ} {t : Thread} : (findNode l path).isSome →
    UpdatingInfo l path topicMa t → Valid l (.addTopicWEC path topicMa) t
  | updateTopicInfo {path : CStr} {topicMa : ℤ} {t : Thread} : UpdatingInfo l path topicMa t →
    Valid l (.updateTopicInfo path topicMa) t
  | updateTopicData {path : CStr} {dataMa : ℤ} {data : Option (List Byte)} {dataSize : ℕ}
    {t : Thread} : UpdatingData l path dataMa data dataSize t →
    Valid l (.updateTopicData path dataMa data dataSize) t
  | deleteTopicData {path : CStr} {t : Thread} : DeletingData l path t →
    Valid l (.deleteTopicData path) t

theorem valid_start (l : List (ℕ × Node)) (c : Call) : Valid l c c.start := by
  cases c with
  | addTopicWEC path topicMa => exact .searching .getTopic
  | updateTopicInfo path topicMa => exact .updateTopicInfo (.searching .getTopic)
  | updateTopicData path dataMa data dataSize => exact .updateTopicData (.searching .getTopic)
  | deleteTopicData path => exact .deleteTopicData (.searching .getTopic)

/-- What `updateTopicInfo` has read is enough to copy the data. -/
theorem source_ptr (hl : mem.Lists l) (hfind : findNode l path = some (a, x)) {n : ℕ}
    {d : Option Str} (hn : n = dataLength x.record.data) (hd : n = 0 ∨ d = x.data) :
    ∃ bytes, (Data.ptr d).source mem n = .ok bytes ∧
      (bytes.map fun b => CStr.read (b.take n)) = TopicDB.normData x.record.data := by
  obtain ⟨l₁, l₂, rfl, -, -⟩ := exists_split hfind
  have hcopy := copyData_dataLength x.record.data
  rw [← hn] at hcopy
  rw [← hcopy, Data.source]
  by_cases hpos : 0 < n
  · obtain rfl : d = x.data := hd.resolve_left hpos.ne'
    cases hx : x.data with
    | none =>
      have hnone : x.record.data = none := congrArg (Option.map Str.text) hx
      rw [hn, hnone] at hpos
      exact absurd hpos (lt_irrefl 0)
    | some s =>
      have hsome : x.record.data = some s.text := congrArg (Option.map Str.text) hx
      rw [if_pos hpos, Data.read, if_neg (hl.notMem_freed hx), hsome]
      exact ⟨_, rfl, (if_pos hpos).symm⟩
  · rw [if_neg hpos]
    refine ⟨none, rfl, ?_⟩
    cases x.record.data with
    | none => rfl
    | some d => exact (if_neg hpos).symm

/-- A thread that has not returned. -/
theorem not_done (h : ∀ result, t ≠ .done result) : ¬t.Done := fun ⟨result, ht⟩ => h result ht

/-- `updateTopicInfo`, when the path is there. -/
theorem UpdatingInfo.runs_found {c : Call} {topicMa : ℤ} (h : UpdatingInfo l c.path topicMa t)
    (hl : mem.Lists l) (hfind : findNode l c.path = some (a, x))
    (happly : c.apply x.record = { x.record with
      data := TopicDB.normData x.record.data, topicMa })
    (hV : ∀ t, UpdatingInfo l c.path topicMa t → V t) :
    Runs (step m) Thread.Done mem V (Committed c l) t := by
  obtain ⟨cell, hcell, rfl⟩ := hl.load hfind
  -- each read, given what follows it
  have hset : ∀ {n d t}, n = dataLength cell.val.record.data → n = 0 ∨ d = cell.val.data →
      Setting l c.path (.ptr d) n topicMa cell.val.dataMa t →
      Runs (step m) Thread.Done mem V (Committed c l) t := by
    intro n d t hn hd ht
    obtain ⟨bytes, hread, hbytes⟩ := source_ptr hl hfind hn hd
    refine ht.runs hl hfind hread ?_ fun t ht => hV t (.setting hfind hn hd rfl ht)
    rw [happly, hbytes]
    rfl
  have hma : ∀ {n d}, n = dataLength cell.val.record.data → n = 0 ∨ d = cell.val.data →
      Runs (step m) Thread.Done mem V (Committed c l) (.infoMa c.path topicMa a n d) := by
    intro n d hn hd
    refine .next (hV _ (.infoMa hfind hn hd)) (not_done fun _ h => by cases h) ?_
      (hset hn hd (.searching .getTopic))
    rw [step, hcell]
    rfl
  have hdata : ∀ {n}, n = dataLength cell.val.record.data →
      Runs (step m) Thread.Done mem V (Committed c l) (.infoData c.path topicMa a n) := by
    intro n hn
    refine .next (hV _ (.infoData hfind hn)) (not_done fun _ h => by cases h) ?_
      (hma hn (.inr rfl))
    rw [step, hcell]
    rfl
  have hlength : cell.val.data.isSome →
      Runs (step m) Thread.Done mem V (Committed c l) (.infoLength c.path topicMa a) := by
    intro hsome
    obtain ⟨s, hs⟩ := Option.isSome_iff_exists.1 hsome
    obtain ⟨l₁, l₂, rfl, -, -⟩ := exists_split hfind
    have hrec : dataLength cell.val.record.data = s.text.length :=
      congrArg (fun d : Option Str => dataLength (d.map Str.text)) hs
    refine .next (hV _ (.infoLength hfind hsome)) (not_done fun _ h => by cases h) ?_
      (hdata hrec.symm)
    rw [step, hcell]
    simp only [bind, Except.bind, hs, if_neg (hl.notMem_freed hs)]
  have htest : Runs (step m) Thread.Done mem V (Committed c l) (.infoTest c.path topicMa a) := by
    cases hd : cell.val.data with
    | none =>
      have hrec : dataLength cell.val.record.data = 0 :=
        congrArg (fun d : Option Str => dataLength (d.map Str.text)) hd
      refine .next (hV _ (.infoTest hfind)) (not_done fun _ h => by cases h) ?_ (hdata hrec.symm)
      rw [step, hcell]
      simp only [bind, Except.bind, hd]
    | some s =>
      refine .next (hV _ (.infoTest hfind)) (not_done fun _ h => by cases h) ?_
        (hlength (hd ▸ rfl))
      rw [step, hcell]
      simp only [bind, Except.bind, hd]
  cases h with
  | searching h => exact h.runs_found hl hfind (fun t ht => hV t (.searching ht)) htest
  | infoTest hfind' =>
    cases hfind.symm.trans hfind'
    exact htest
  | infoLength hfind' hsome =>
    cases hfind.symm.trans hfind'
    exact hlength hsome
  | infoData hfind' hn =>
    cases hfind.symm.trans hfind'
    exact hdata hn
  | infoMa hfind' hn hd =>
    cases hfind.symm.trans hfind'
    exact hma hn hd
  | setting hfind' hn hd hdma ht =>
    cases hfind.symm.trans hfind'
    subst hdma
    exact hset hn hd ht

/-- `updateTopicData`, when the path is there. -/
theorem UpdatingData.runs_found {dataMa : ℤ} {data : Option (List Byte)} {n : ℕ}
    (h : UpdatingData l path dataMa data n t) (hl : mem.Lists l)
    (hfind : findNode l path = some (a, x)) (hV : ∀ t, UpdatingData l path dataMa data n t → V t) :
    Runs (step m) Thread.Done mem V (Committed (.updateTopicData path dataMa data n) l) t := by
  obtain ⟨cell, hcell, rfl⟩ := hl.load hfind
  have hset : ∀ {t}, Setting l path (.buf data) n cell.val.topicMa dataMa t →
      Runs (step m) Thread.Done mem V (Committed (.updateTopicData path dataMa data n) l) t := by
    intro t ht
    have hread : (Data.buf data).source mem n = .ok (if 0 < n then data else none) := by
      rw [Data.source, Data.read]
      split_ifs <;> rfl
    refine ht.runs hl hfind hread ?_ fun t ht => hV t (.setting hfind rfl ht)
    cases data <;> by_cases hn : 0 < n <;> simp [Call.apply, copyData, Node.record, hn]
  have hma : Runs (step m) Thread.Done mem V (Committed (.updateTopicData path dataMa data n) l)
      (.dataMa path dataMa data n a) := by
    refine .next (hV _ (.dataMa hfind)) (not_done fun _ h => by cases h) ?_
      (hset (.searching .getTopic))
    rw [step, hcell]
    rfl
  cases h with
  | searching h => exact h.runs_found hl hfind (fun t ht => hV t (.searching ht)) hma
  | dataMa hfind' =>
    cases hfind.symm.trans hfind'
    exact hma
  | setting hfind' hma' ht =>
    cases hfind.symm.trans hfind'
    subst hma'
    exact hset ht

/-- `deleteTopicData`, when the path is there. -/
theorem DeletingData.runs_found (h : DeletingData l path t) (hl : mem.Lists l)
    (hfind : findNode l path = some (a, x)) (hV : ∀ t, DeletingData l path t → V t) :
    Runs (step m) Thread.Done mem V (Committed (.deleteTopicData path) l) t := by
  have hdelete : Runs (step m) Thread.Done mem V (Committed (.deleteTopicData path) l)
      (.deleteSection a) := by
    have hv := hV _ (.deleteSection hfind)
    obtain ⟨l₁, l₂, rfl, hl₁, hx⟩ := exists_split hfind
    obtain ⟨mem', y, hdel, hl', hy, hnone⟩ := deleteTopicDataSection_ok hl
    refine .commit hv (not_done fun _ h => by cases h) ?_ ⟨true, rfl⟩
      ⟨_, hl', .write hl₁ hx hy fun s _ hs => ?_⟩
    · rw [step, hdel]
      rfl
    · rw [hnone] at hs
      cases hs
  cases h with
  | searching h => exact h.runs_found hl hfind (fun t ht => hV t (.searching ht)) hdelete
  | deleteSection hfind' =>
    cases hfind.symm.trans hfind'
    exact hdelete

/-- A call that looks for a path, when it is not there, and adds nothing. -/
theorem Searching.runs_skip {c : Call} (h : Searching l caller t) (hl : mem.Lists l)
    (hfind : findNode l caller.path = none) (hpath : caller.path = c.path)
    (hc : ¬c.Inserts (records l)) (hret : caller.returned none = .done false)
    (hV : ∀ t, Searching l caller t → V t) :
    Runs (step m) Thread.Done mem V (Committed c l) t := by
  have hnone : found l caller.path = none := by rw [found, hfind, Option.map_none]
  refine (h.silent hl).runs_done h.not_done ⟨false, ?_⟩ hV ⟨l, hl, .skip (hpath ▸ hfind) hc⟩
  rw [hnone, hret]

/-- The step by which `addTopic` links the new node. -/
def addLast (l : List (ℕ × Node)) (path : CStr) (topicMa : ℤ) : Thread :=
  match (frame l).getLast? with
  | none => .addHead path topicMa none
  | some c => .addSection path topicMa c.1

theorem addLast_of_nil {topicMa : ℤ} (hnil : l = []) :
    addLast l path topicMa = .addHead path topicMa none := by
  rw [hnil]
  rfl

theorem addLast_of_concat {topicMa : ℤ} {k : List (ℕ × CStr)} {q : CStr}
    (hk : frame l = k ++ [(a, q)]) : addLast l path topicMa = .addSection path topicMa a := by
  rw [addLast, hk, List.getLast?_concat]

/-- A thread that has not returned. -/
theorem Adding.not_done {topicMa : ℤ} (h : Adding l path topicMa t) : ¬t.Done := by
  rintro ⟨result, rfl⟩
  cases h

/-- The loop of `addTopic` comes to the last node. -/
theorem silent_addNext {topicMa : ℤ} {k₁ k₂ : List (ℕ × CStr)} {q : CStr} (hl : mem.Lists l)
    (hk : frame l = k₁ ++ (a, q) :: k₂) :
    Silent (step m) Thread.Done mem (Adding l path topicMa) (.addNext path topicMa a)
      (addLast l path topicMa) := by
  induction k₂ generalizing k₁ a q with
  | nil =>
    obtain ⟨c, hc, -, hnext⟩ := hl.next hk
    refine .head (.addNext hk) (Adding.addNext hk).not_done ?_ .refl
    rw [step, load_of_lookup hc, addLast_of_concat hk]
    simp only [bind, Except.bind, hnext]
    rfl
  | cons b k₂ ih =>
    obtain ⟨c, hc, -, hnext⟩ := hl.next hk
    have hk' : frame l = (k₁ ++ [(a, q)]) ++ (b.1, b.2) :: k₂ := by simpa using hk
    refine .head (.addNext hk) (Adding.addNext hk).not_done ?_ (ih hk')
    rw [step, load_of_lookup hc]
    simp only [bind, Except.bind, hnext]
    rfl

/-- `addTopic` comes to its last step. -/
theorem Adding.silent {topicMa : ℤ} (h : Adding l path topicMa t) (hl : mem.Lists l) :
    Silent (step m) Thread.Done mem (Adding l path topicMa) t (addLast l path topicMa) := by
  have hhead : l = [] → Silent (step m) Thread.Done mem (Adding l path topicMa)
      (.addHeadNext path topicMa) (addLast l path topicMa) := by
    intro hnil
    have hsPtr : mem.sPtr = none := by
      rw [hl.sPtr, hnil]
      rfl
    refine .head (.addHeadNext hnil) (Adding.addHeadNext hnil).not_done ?_ .refl
    rw [step, hsPtr, addLast_of_nil hnil]
  cases h with
  | addNext hk => exact silent_addNext hl hk
  | addSection hk => exact addLast_of_concat hk ▸ .refl
  | addHead hnil => exact addLast_of_nil hnil ▸ .refl
  | addHeadNext hnil => exact hhead hnil
  | addFirst =>
    have hfirst : Adding l path topicMa (.addFirst path topicMa) := .addFirst
    have hsPtr := hl.sPtr
    rcases l with _ | ⟨⟨b, y⟩, l'⟩
    · refine .head hfirst hfirst.not_done ?_ (hhead rfl)
      rw [step, hsPtr]
      rfl
    · have hk : frame ((b, y) :: l') = [] ++ (b, y.path) :: frame l' := rfl
      refine .head hfirst hfirst.not_done ?_ (silent_addNext hl hk)
      rw [step, hsPtr]
      rfl

/-- The last step of `addTopic`, when the last node is the one it has found. -/
theorem addLast_step {topicMa : ℤ} (hl : mem.Lists l) :
    ∃ mem' b, step m mem (addLast l path topicMa) = .ok (mem', .done true) ∧
      mem'.Lists (l ++ [(b, newNode path topicMa)]) := by
  rcases List.eq_nil_or_concat' l with rfl | ⟨l, ⟨a, x⟩, rfl⟩
  · exact ⟨_, m.ptr mem.heap.keys, rfl, .cons (Finmap.lookup_insert mem.heap) .nil,
      List.nodup_nil, fun _ hs => absurd hs List.not_mem_nil, hl.freed_lt⟩
  · obtain ⟨c, hc, -⟩ := hl.cell
    have hk : frame (l ++ [(a, x)]) = frame l ++ [(a, x.path)] := List.map_append
    rw [addLast_of_concat hk, step, load_of_lookup hc]
    refine ⟨_, m.ptr mem.heap.keys, rfl, ?_, ?_, ?_, hl.freed_lt⟩
    · rw [List.append_assoc]
      exact hl.segment.link (m.lookup_ptr mem.heap) hc _
    · rw [strings_append]
      exact (List.append_nil _).symm ▸ hl.nodup
    · rw [strings_append]
      exact (List.append_nil _).symm ▸ hl.live

theorem Adding.last (l : List (ℕ × Node)) (path : CStr) (topicMa : ℤ) :
    Adding l path topicMa (addLast l path topicMa) := by
  rcases List.eq_nil_or_concat' l with rfl | ⟨l, ⟨a, x⟩, rfl⟩
  · exact .addHead rfl
  · have hk : frame (l ++ [(a, x)]) = frame l ++ [(a, x.path)] := List.map_append
    exact addLast_of_concat hk ▸ .addSection hk

/-- `addTopicWEC`, when it has not found the path. -/
theorem Adding.runs_append {topicMa : ℤ} (h : Adding l path topicMa t) (hl : mem.Lists l)
    (hfind : findNode l path = none) (hlen : 0 < path.length) :
    Runs (step m) Thread.Done mem (Valid l (.addTopicWEC path topicMa))
      (Committed (.addTopicWEC path topicMa) l) t := by
  have hlast := Adding.last l path topicMa
  obtain ⟨mem', b, hstep, hl'⟩ := addLast_step hl
  exact (h.silent hl).runs (fun t ht => .adding hfind hlen ht)
    (.commit (.adding hfind hlen hlast) hlast.not_done hstep ⟨true, rfl⟩
      ⟨_, hl', .append rfl hlen hfind⟩)

/-- A call that adds nothing when the path is not there. -/
theorem not_inserts {c : Call} {db : TopicDB}
    (h : ∀ path topicMa, c = .addTopicWEC path topicMa → ¬0 < path.length) : ¬c.Inserts db :=
  fun ⟨path, topicMa, hc, hlen, _⟩ => h path topicMa hc hlen

/-- A call that runs alone, from any state that fits the list. -/
theorem Valid.runs {c : Call} (h : Valid l c t) (hl : mem.Lists l) :
    Runs (step m) Thread.Done mem (Valid l c) (Committed c l) t := by
  cases h with
  | @searching path topicMa _ ht =>
    cases hfind : findNode l path with
    | none =>
      -- the topic is not there: it is added, or the path is refused
      by_cases hlen : 0 < path.length
      · refine ht.runs_none hl hfind (fun t ht => .searching ht) ?_
        rw [Caller.returned, if_pos hlen]
        exact Adding.addFirst.runs_append hl hfind hlen
      · refine ht.runs_skip hl hfind rfl (not_inserts fun p ma hc => ?_) (if_neg hlen)
          fun t ht => .searching ht
        cases hc
        exact hlen
    | some n =>
      -- the topic is there: its lifetime is updated instead
      refine ht.runs_found hl hfind (fun t ht => .searching ht) ?_
      exact (UpdatingInfo.searching .getTopic).runs_found hl hfind rfl
        fun t ht => .addTopicWEC (hfind ▸ rfl) ht
  | adding hfind hlen ht => exact ht.runs_append hl hfind hlen
  | addTopicWEC hfind ht =>
    obtain ⟨n, hn⟩ := Option.isSome_iff_exists.1 hfind
    exact ht.runs_found hl hn rfl fun t ht => .addTopicWEC hfind ht
  | @updateTopicInfo path topicMa _ ht =>
    cases hfind : findNode l path with
    | some n => exact ht.runs_found hl hfind rfl fun t ht => .updateTopicInfo ht
    | none =>
      cases ht with
      | searching ht =>
        exact ht.runs_skip hl hfind rfl (not_inserts fun _ _ hc => by cases hc) rfl
          fun t ht => .updateTopicInfo (.searching ht)
      | infoTest h | infoLength h | infoData h | infoMa h | setting h => cases h.symm.trans hfind
  | @updateTopicData path dataMa data n _ ht =>
    cases hfind : findNode l path with
    | some n => exact ht.runs_found hl hfind fun t ht => .updateTopicData ht
    | none =>
      cases ht with
      | searching ht =>
        exact ht.runs_skip hl hfind rfl (not_inserts fun _ _ hc => by cases hc) rfl
          fun t ht => .updateTopicData (.searching ht)
      | dataMa h | setting h => cases h.symm.trans hfind
  | @deleteTopicData path _ ht =>
    cases hfind : findNode l path with
    | some n => exact ht.runs_found hl hfind fun t ht => .deleteTopicData ht
    | none =>
      cases ht with
      | searching ht =>
        exact ht.runs_skip hl hfind rfl (not_inserts fun _ _ hc => by cases hc) rfl
          fun t ht => .deleteTopicData (.searching ht)
      | deleteSection h => cases h.symm.trans hfind

/-- A call that runs alone does what the function of the store does. -/
theorem runs_start (hl : mem.Lists l) (c : Call) :
    Runs (step m) Thread.Done mem (Valid l c) (Committed c l) c.start :=
  (valid_start l c).runs hl

end Threads

end CoapBroker
