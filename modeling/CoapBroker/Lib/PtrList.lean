import CoapBroker.Lib.Keyed
import Mathlib.Data.Finmap

/-!
# Linked lists on a heap

Cells with a value and a pointer to the next one, on a heap (`Heap`) from addresses to cells.
The cells from one pointer to another are a segment (`Segment`); the segments that end at
`NULL` are the well-formed lists. A segment stays one when cells outside of it change
(`Segment.congr`), and

* `Segment.store`: when a value in it changes,
* `Segment.unlink`: when a cell in the middle is taken out (`Segment.bypass`: and stays
  allocated),
* `Segment.link`: when a new cell is linked to the last one (`Segment.cut`: or to one before).

A walk through a list (`walk`) ends at the first cell that satisfies a condition, with a
pointer to the one before (`walk_found`), or else at the end (`walk_end`).

The values may have keys. Then a list has a first cell with a key (`FirstAt`) or none
(`exists_firstAt`), and storing to that cell is changing the first record with the key.
-/

namespace CoapBroker.PtrList

variable {α : Type*}

/-- A pointer, `none` being `NULL`. -/
abbrev Ptr := Option ℕ

/-- A cell. -/
structure Cell (α : Type*) where
  val : α
  nextPtr : Ptr
  deriving DecidableEq

/-- The cells that are allocated, by their addresses. -/
abbrev Heap (α : Type*) := Finmap fun _ : ℕ => Cell α

/-- What makes a program on a heap fail. -/
inductive HeapFault
  /-- There is no cell at an address. -/
  | dangling
  /-- A walk comes back to a cell. -/
  | cyclic
  deriving DecidableEq

/-- Allocation: the address of a new cell is not in use. -/
structure Malloc where
  ptr : Finset ℕ → ℕ
  fresh : ∀ s, ptr s ∉ s

/-- Allocating above all addresses in use. -/
def Malloc.above : Malloc where
  ptr s := s.sup id + 1
  fresh s h := by
    have : s.sup id + 1 ≤ s.sup id := Finset.le_sup (f := id) h
    omega

/-- Reading a cell. -/
def load (h : Heap α) (a : ℕ) : Except HeapFault (Cell α) :=
  match h.lookup a with
  | some c => .ok c
  | none => .error .dangling

theorem load_of_lookup {h : Heap α} {a : ℕ} {c : Cell α} (hc : h.lookup a = some c) :
    load h a = .ok c := by
  rw [load, hc]

theorem lookup_of_load {h : Heap α} {a : ℕ} {c : Cell α} (hc : load h a = .ok c) :
    h.lookup a = some c := by
  rw [load] at hc
  split at hc
  · cases hc
    assumption
  · cases hc

/-- A program that does not fail has a first part that does not fail. -/
theorem exists_of_bind {β γ : Type} {x : Except HeapFault β} {f : β → Except HeapFault γ} {r : γ}
    (h : x >>= f = .ok r) : ∃ y, x = .ok y ∧ f y = .ok r := by
  rcases x with e | y
  · cases h
  · exact ⟨y, rfl, h⟩

/-- Writing what a cell holds. -/
theorem insert_of_lookup {h : Heap α} {a : ℕ} {c : Cell α} (hc : h.lookup a = some c) :
    h.insert a c = h := by
  refine Finmap.ext_lookup fun b => ?_
  by_cases hb : b = a
  · rw [hb, Finmap.lookup_insert, hc]
  · rw [Finmap.lookup_insert_of_ne _ hb]

/-- A new cell leaves the others where they are. -/
theorem lookup_insert_of_lookup {h : Heap α} {a b : ℕ} {c cb : Cell α} (ha : h.lookup a = none)
    (hb : h.lookup b = some cb) : (h.insert a c).lookup b = some cb := by
  have hne : b ≠ a := fun heq => by rw [← heq, hb] at ha; cases ha
  rw [Finmap.lookup_insert_of_ne _ hne, hb]

theorem card_keys_le_insert (h : Heap α) (a : ℕ) (c : Cell α) :
    h.keys.card ≤ (h.insert a c).keys.card :=
  Finset.card_le_card fun _ hb =>
    Finmap.mem_keys.2 (Finmap.mem_insert.2 (.inr (Finmap.mem_keys.1 hb)))

/-- The address malloc gives is free. -/
theorem Malloc.lookup_ptr (m : Malloc) (h : Heap α) : h.lookup (m.ptr h.keys) = none :=
  Finmap.lookup_eq_none.2 fun hm => m.fresh h.keys (Finmap.mem_keys.2 hm)

/-! ## Segments -/

/-- The cells from one pointer to another, with their addresses. -/
inductive Segment (h : Heap α) : Ptr → List (ℕ × α) → Ptr → Prop
  | nil {p : Ptr} : Segment h p [] p
  | cons {a : ℕ} {c : Cell α} {l : List (ℕ × α)} {q : Ptr} :
    h.lookup a = some c → Segment h c.nextPtr l q → Segment h (some a) ((a, c.val) :: l) q

variable {h h' : Heap α} {p q : Ptr} {l l₁ l₂ : List (ℕ × α)} {a b : ℕ} {x y : α}

theorem segment_nil_iff : Segment h p [] q ↔ p = q :=
  ⟨fun hs => by cases hs; rfl, fun hpq => hpq ▸ .nil⟩

theorem segment_cons_iff : Segment h p ((a, x) :: l) q ↔
    p = some a ∧ ∃ c, h.lookup a = some c ∧ c.val = x ∧ Segment h c.nextPtr l q := by
  constructor
  · intro hs
    cases hs with
    | cons hc hs => exact ⟨rfl, _, hc, rfl, hs⟩
  · rintro ⟨rfl, c, hc, rfl, hs⟩
    exact .cons hc hs

/-- Segments are put together at a pointer. -/
theorem segment_append_iff : Segment h p (l₁ ++ l₂) q ↔
    ∃ r, Segment h p l₁ r ∧ Segment h r l₂ q := by
  induction l₁ generalizing p with
  | nil => simp [segment_nil_iff]
  | cons x l₁ ih =>
    obtain ⟨a, x⟩ := x
    simp only [List.cons_append, segment_cons_iff, ih]
    constructor
    · rintro ⟨rfl, c, hc, hx, r, hs, hs'⟩
      exact ⟨r, ⟨rfl, c, hc, hx, hs⟩, hs'⟩
    · rintro ⟨r, ⟨rfl, c, hc, hx, hs⟩, hs'⟩
      exact ⟨rfl, c, hc, hx, r, hs, hs'⟩

/-- A segment depends on its cells only. -/
theorem Segment.congr (hs : Segment h p l q) (heq : ∀ c ∈ l, h'.lookup c.1 = h.lookup c.1) :
    Segment h' p l q := by
  induction hs with
  | nil => exact .nil
  | cons hc _ ih =>
    rw [List.forall_mem_cons] at heq
    exact .cons (heq.1.trans hc) (ih heq.2)

theorem Segment.insert_of_notMem (hs : Segment h p l q) (ha : a ∉ l.map Prod.fst) (c : Cell α) :
    Segment (h.insert a c) p l q :=
  hs.congr fun _ hc => Finmap.lookup_insert_of_ne h fun heq => ha (heq ▸ List.mem_map_of_mem hc)

theorem Segment.erase_of_notMem (hs : Segment h p l q) (ha : a ∉ l.map Prod.fst) :
    Segment (h.erase a) p l q :=
  hs.congr fun _ hc => Finmap.lookup_erase_ne fun heq => ha (heq ▸ List.mem_map_of_mem hc)

/-- The pointer to a list is the address of its first cell. -/
theorem Segment.ptr_eq (hs : Segment h p l none) : p = (l.head?).map Prod.fst := by
  rcases l with _ | ⟨⟨a, x⟩, l⟩
  · exact segment_nil_iff.1 hs
  · exact (segment_cons_iff.1 hs).1

/-- There is one list from a pointer to the end. -/
theorem Segment.unique {l' : List (ℕ × α)} (hs : Segment h p l none) (hs' : Segment h p l' none) :
    l = l' := by
  induction l generalizing p l' with
  | nil =>
    cases segment_nil_iff.1 hs
    cases hs'
    rfl
  | cons x l ih =>
    obtain ⟨rfl, c, hc, hx, hs⟩ := segment_cons_iff.1 hs
    cases hs' with
    | cons hc' hs' =>
      obtain rfl := Option.some.inj (hc.symm.trans hc')
      rw [ih hs hs', hx]

theorem Segment.mem_keys (hs : Segment h p l q) : ∀ a ∈ l.map Prod.fst, a ∈ h.keys := by
  induction hs with
  | nil => exact fun a ha => absurd ha List.not_mem_nil
  | cons hc _ ih =>
    rw [List.map_cons, List.forall_mem_cons]
    exact ⟨Finmap.mem_keys.2 (Finmap.mem_of_lookup_eq_some hc), ih⟩

/-- A list that ends comes back to no cell: what follows the cell would be longer than
    itself. -/
theorem Segment.nodup (hs : Segment h p l none) : (l.map Prod.fst).Nodup := by
  induction l generalizing p with
  | nil => exact List.nodup_nil
  | cons x l ih =>
    obtain ⟨a, x⟩ := x
    obtain ⟨rfl, c, -, -, htail⟩ := segment_cons_iff.1 hs
    rw [List.map_cons, List.nodup_cons]
    refine ⟨fun hmem => ?_, ih htail⟩
    obtain ⟨y, hy, heq⟩ := List.mem_map.1 hmem
    obtain ⟨l₁, l₂, rfl⟩ := List.append_of_mem hy
    obtain ⟨r, -, hs'⟩ := segment_append_iff.1 htail
    obtain ⟨rfl, -⟩ := segment_cons_iff.1 hs'
    rw [heq] at hs'
    have hlen := congrArg List.length (hs.unique hs')
    simp only [List.length_cons, List.length_append] at hlen
    omega

/-- A list is no longer than the heap. -/
theorem Segment.length_le (hs : Segment h p l none) : l.length ≤ h.keys.card := by
  rw [← List.length_map Prod.fst, ← List.toFinset_card_of_nodup hs.nodup]
  exact Finset.card_le_card fun a ha => hs.mem_keys a (List.mem_toFinset.1 ha)

/-! ## Changing a list -/

/-- The parts of a list around a cell. -/
theorem Segment.split (hs : Segment h p (l₁ ++ (a, x) :: l₂) none) :
    ∃ c, h.lookup a = some c ∧ c.val = x ∧ Segment h p l₁ (some a) ∧
      Segment h c.nextPtr l₂ none ∧ a ∉ l₁.map Prod.fst ∧ a ∉ l₂.map Prod.fst := by
  have hnodup := hs.nodup
  rw [List.map_append, List.map_cons, List.nodup_append, List.nodup_cons] at hnodup
  obtain ⟨-, ⟨ha₂, -⟩, hdisj⟩ := hnodup
  obtain ⟨r, hs₁, hs₂⟩ := segment_append_iff.1 hs
  obtain ⟨rfl, c, hc, hx, hs₂⟩ := segment_cons_iff.1 hs₂
  exact ⟨c, hc, hx, hs₁, hs₂, fun ha => hdisj a ha a List.mem_cons_self rfl, ha₂⟩

/-- Storing a value. -/
theorem Segment.store (hs : Segment h p (l₁ ++ (a, x) :: l₂) none) {c : Cell α}
    (hc : h.lookup a = some c) (y : α) :
    Segment (h.insert a { c with val := y }) p (l₁ ++ (a, y) :: l₂) none := by
  obtain ⟨c', hc', -, hs₁, hs₂, ha₁, ha₂⟩ := hs.split
  obtain rfl := Option.some.inj (hc.symm.trans hc')
  refine segment_append_iff.2 ⟨some a, hs₁.insert_of_notMem ha₁ _, ?_⟩
  exact .cons (c := { c with val := y }) (Finmap.lookup_insert h) (hs₂.insert_of_notMem ha₂ _)

/-- Taking out the first cell. -/
theorem Segment.unlink_head (hs : Segment h p ((a, x) :: l) none) {c : Cell α}
    (hc : h.lookup a = some c) : Segment (h.erase a) c.nextPtr l none := by
  obtain ⟨c', hc', -, -, hs₂, -, ha₂⟩ := Segment.split (List.nil_append ((a, x) :: l) ▸ hs)
  obtain rfl := Option.some.inj (hc.symm.trans hc')
  exact hs₂.erase_of_notMem ha₂

/-- Linking a cell to the one after the next. -/
theorem Segment.bypass (hs : Segment h p (l₁ ++ (b, y) :: (a, x) :: l₂) none) {cb ca : Cell α}
    (hb : h.lookup b = some cb) (ha : h.lookup a = some ca) :
    Segment (h.insert b { cb with nextPtr := ca.nextPtr }) p (l₁ ++ (b, y) :: l₂) none ∧
      a ∉ (l₁ ++ (b, y) :: l₂).map Prod.fst := by
  obtain ⟨cb', hb', hy, hs₁, hs₂, hb₁, hb₂⟩ := hs.split
  obtain rfl := Option.some.inj (hb.symm.trans hb')
  rw [← List.singleton_append, ← List.append_assoc] at hs
  obtain ⟨ca', ha', -, -, hs₃, ha₁, ha₂⟩ := hs.split
  obtain rfl := Option.some.inj (ha.symm.trans ha')
  rw [List.map_cons, List.mem_cons, not_or] at hb₂
  refine ⟨segment_append_iff.2 ⟨some b, hs₁.insert_of_notMem hb₁ _, ?_⟩, ?_⟩
  · refine segment_cons_iff.2 ⟨rfl, _, Finmap.lookup_insert h, hy, ?_⟩
    exact hs₃.insert_of_notMem hb₂.2 _
  · rw [← List.singleton_append, ← List.append_assoc, List.map_append, List.mem_append, not_or]
    exact ⟨ha₁, ha₂⟩

/-- Taking out the cell after another one. -/
theorem Segment.unlink (hs : Segment h p (l₁ ++ (b, y) :: (a, x) :: l₂) none) {cb ca : Cell α}
    (hb : h.lookup b = some cb) (ha : h.lookup a = some ca) :
    Segment ((h.insert b { cb with nextPtr := ca.nextPtr }).erase a) p (l₁ ++ (b, y) :: l₂)
      none :=
  let ⟨hs', ha'⟩ := hs.bypass hb ha
  hs'.erase_of_notMem ha'

/-- Linking a new cell to one of a list, which ends there then. -/
theorem Segment.cut (hs : Segment h p (l ++ (b, y) :: l₂) none) (ha : h.lookup a = none)
    {cb : Cell α} (hb : h.lookup b = some cb) (x : α) :
    Segment ((h.insert a ⟨x, none⟩).insert b { cb with nextPtr := some a }) p
      (l ++ [(b, y), (a, x)]) none := by
  obtain ⟨cb', hb', hy, hs₁, -, hb₁, -⟩ := hs.split
  obtain rfl := Option.some.inj (hb.symm.trans hb')
  have hne : a ≠ b := fun heq => by rw [heq, hb] at ha; cases ha
  have ha₁ : a ∉ l.map Prod.fst := fun hm =>
    Finmap.lookup_eq_none.1 ha (Finmap.mem_keys.1 (hs₁.mem_keys a hm))
  refine segment_append_iff.2
    ⟨some b, (hs₁.insert_of_notMem ha₁ _).insert_of_notMem hb₁ _, ?_⟩
  refine segment_cons_iff.2 ⟨rfl, _, Finmap.lookup_insert _, hy, ?_⟩
  refine .cons (c := ⟨x, none⟩) ?_ .nil
  rw [Finmap.lookup_insert_of_ne _ hne, Finmap.lookup_insert]

/-- Linking a new cell to the last one. -/
theorem Segment.link (hs : Segment h p (l ++ [(b, y)]) none) (ha : h.lookup a = none)
    {cb : Cell α} (hb : h.lookup b = some cb) (x : α) :
    Segment ((h.insert a ⟨x, none⟩).insert b { cb with nextPtr := some a }) p
      (l ++ [(b, y), (a, x)]) none :=
  hs.cut ha hb x

/-- The end of a list begins where a list of the same cells does. -/
theorem Segment.end_of_append (hs : Segment h p (l₁ ++ l₂) none) (hq : Segment h' q l none)
    (heq : l.map Prod.fst = l₂.map Prod.fst) : Segment h q l₂ none := by
  obtain ⟨r, -, hr⟩ := segment_append_iff.1 hs
  rw [hq.ptr_eq, ← List.head?_map, heq, List.head?_map, ← hr.ptr_eq]
  exact hr

/-! ## Walking -/

/-- Walking on from `currentPtr`, up to a cell whose value satisfies `stop` or to the end:
    the last two pointers. -/
def walk (h : Heap α) (stop : α → Bool) : ℕ → Ptr → Ptr → Except HeapFault (Ptr × Ptr)
  | _, previousPtr, none => .ok (previousPtr, none)
  | 0, _, some _ => .error .cyclic
  | n + 1, previousPtr, some a =>
    match load h a with
    | .error f => .error f
    | .ok c => if stop c.val then .ok (previousPtr, some a) else walk h stop n (some a) c.nextPtr

/-- The pointer before the cell that follows a list. -/
def lastPtr (previousPtr : Ptr) (l : List (ℕ × α)) : Ptr :=
  l.foldl (fun _ c => some c.1) previousPtr

@[simp] theorem lastPtr_concat (p : Ptr) (l : List (ℕ × α)) (b : ℕ) (y : α) :
    lastPtr p (l ++ [(b, y)]) = some b :=
  List.foldl_concat ..

variable {stop : α → Bool} {prev : Ptr}

/-- In a list, no cell has the condition, or there is a first one. -/
theorem exists_first (stop : α → Bool) (l : List (ℕ × α)) :
    (∀ c ∈ l, stop c.2 = false) ∨ ∃ l₁ a x l₂, l = l₁ ++ (a, x) :: l₂ ∧
      (∀ c ∈ l₁, stop c.2 = false) ∧ stop x = true := by
  rcases hfind : l.find? fun c => stop c.2 with _ | ⟨a, x⟩
  · exact .inl fun c hc => by simpa using List.find?_eq_none.1 hfind c hc
  · obtain ⟨hx, l₁, l₂, rfl, hl₁⟩ := List.find?_eq_some_iff_append.1 hfind
    exact .inr ⟨l₁, a, x, l₂, rfl, fun c hc => by simpa using hl₁ c hc, hx⟩

/-- A walk ends at the first cell with the condition. -/
theorem walk_found (hs : Segment h p (l₁ ++ (a, x) :: l₂) q) (hl₁ : ∀ c ∈ l₁, stop c.2 = false)
    (hx : stop x = true) {n : ℕ} (hn : l₁.length < n) :
    walk h stop n prev p = .ok (lastPtr prev l₁, some a) := by
  induction l₁ generalizing p n prev with
  | nil =>
    obtain ⟨n, rfl⟩ : ∃ m, n = m + 1 := ⟨n - 1, by omega⟩
    obtain ⟨rfl, c, hc, rfl, -⟩ := segment_cons_iff.1 hs
    rw [walk, load_of_lookup hc]
    exact if_pos hx
  | cons b l₁ ih =>
    obtain ⟨n, rfl⟩ : ∃ m, n = m + 1 := ⟨n - 1, by omega⟩
    obtain ⟨rfl, c, hc, hb, hs⟩ := segment_cons_iff.1 hs
    rw [List.forall_mem_cons] at hl₁
    rw [walk, load_of_lookup hc]
    refine (if_neg ?_).trans (ih hs hl₁.2 (by simpa using hn))
    rw [hb, hl₁.1]
    exact Bool.false_ne_true

/-- Without such a cell, it ends at the end of the list. -/
theorem walk_end (hs : Segment h p l none) (hl : ∀ c ∈ l, stop c.2 = false) {n : ℕ}
    (hn : l.length ≤ n) : walk h stop n prev p = .ok (lastPtr prev l, none) := by
  induction l generalizing p n prev with
  | nil =>
    cases segment_nil_iff.1 hs
    rw [walk]
    rfl
  | cons b l ih =>
    obtain ⟨n, rfl⟩ : ∃ m, n = m + 1 := ⟨n - 1, by rw [List.length_cons] at hn; omega⟩
    obtain ⟨rfl, c, hc, hb, hs⟩ := segment_cons_iff.1 hs
    rw [List.forall_mem_cons] at hl
    rw [walk, load_of_lookup hc]
    refine (if_neg ?_).trans (ih hs hl.2 (by simpa using hn))
    rw [hb, hl.1]
    exact Bool.false_ne_true

/-- A walk that ends does so on a larger heap, too. -/
theorem walk_mono {n n' : ℕ} {r : Ptr × Ptr} (hw : walk h stop n prev p = .ok r) (hn : n ≤ n')
    (hsub : ∀ a c, h.lookup a = some c → h'.lookup a = some c) :
    walk h' stop n' prev p = .ok r := by
  induction n generalizing n' prev p with
  | zero =>
    rcases p with _ | a
    · cases n' <;> exact hw
    · cases hw
  | succ n ih =>
    obtain ⟨n', rfl⟩ : ∃ m, n' = m + 1 := ⟨n' - 1, by omega⟩
    rcases p with _ | a
    · exact hw
    · rw [walk] at hw ⊢
      rcases hc : h.lookup a with _ | c
      · rw [load, hc] at hw
        cases hw
      · rw [load_of_lookup hc] at hw
        rw [load_of_lookup (hsub a c hc)]
        by_cases hstop : stop c.val
        · simpa only [if_pos hstop] using hw
        · simp only [if_neg hstop] at hw ⊢
          exact ih hw (by omega)

/-- Where a walk ends: it has not moved, or the cell before does not have the condition, and
    the cell it ends at, if there is one, has it. -/
theorem walk_ok {n : ℕ} {q r : Ptr} (hw : walk h stop n prev p = .ok (q, r)) :
    (q = prev ∧ r = p ∨ ∃ b c, q = some b ∧ h.lookup b = some c ∧ stop c.val = false) ∧
      ∀ a, r = some a → ∃ c, h.lookup a = some c ∧ stop c.val = true := by
  induction n generalizing prev p with
  | zero =>
    rcases p with _ | a
    · cases hw
      exact ⟨.inl ⟨rfl, rfl⟩, fun a ha => by cases ha⟩
    · cases hw
  | succ n ih =>
    rcases p with _ | a
    · cases hw
      exact ⟨.inl ⟨rfl, rfl⟩, fun a ha => by cases ha⟩
    · rw [walk] at hw
      rcases hc : h.lookup a with _ | c
      · rw [load, hc] at hw
        cases hw
      · rw [load_of_lookup hc] at hw
        by_cases hstop : stop c.val
        · simp only [if_pos hstop] at hw
          cases hw
          refine ⟨.inl ⟨rfl, rfl⟩, fun b hb => ?_⟩
          obtain rfl := Option.some.inj hb
          exact ⟨c, hc, hstop⟩
        · simp only [if_neg hstop] at hw
          obtain ⟨hprev, hend⟩ := ih hw
          refine ⟨.inr ?_, hend⟩
          -- the node before is this one if the walk ends at the next
          rcases hprev with ⟨rfl, -⟩ | hb
          · exact ⟨a, c, rfl, hc, Bool.eq_false_of_not_eq_true hstop⟩
          · exact hb

/-- A walk without a condition ends at the end: there is no cell, or it has passed the last one. -/
theorem walk_false_ok {n : ℕ} {q r : Ptr} (hw : walk h (fun _ => false) n none p = .ok (q, r)) :
    r = none ∧ (q = none ∧ p = none ∨ ∃ b c, q = some b ∧ h.lookup b = some c) := by
  obtain ⟨hprev, hend⟩ := walk_ok hw
  obtain rfl : r = none := Option.eq_none_iff_forall_ne_some.2 fun a ha => by
    obtain ⟨_, _, hstop⟩ := hend a ha
    cases hstop
  refine ⟨rfl, ?_⟩
  rcases hprev with ⟨hq, hp⟩ | ⟨b, c, hq, hc, -⟩
  · exact .inl ⟨hq, hp.symm⟩
  · exact .inr ⟨b, c, hq, hc⟩

/-! ## Keys -/

section

variable {κ : Type*} [DecidableEq κ] {key : α → κ} {k : κ}

/-- A list, with the first cell that has a key. -/
structure FirstAt (h : Heap α) (p : Ptr) (key : α → κ) (k : κ) (l₁ : List (ℕ × α)) (a : ℕ) (x : α)
    (l₂ : List (ℕ × α)) : Prop where
  segment : Segment h p (l₁ ++ (a, x) :: l₂) none
  ne : ∀ c ∈ l₁, key c.2 ≠ k
  key_eq : key x = k

/-- In a list, there is a first cell with a key, or none. -/
theorem exists_firstAt (hs : Segment h p l none) (key : α → κ) (k : κ) :
    (∃ l₁ a x l₂, FirstAt h p key k l₁ a x l₂ ∧ l = l₁ ++ (a, x) :: l₂) ∨ ∀ c ∈ l, key c.2 ≠ k := by
  rcases exists_first (fun x => key x = k) l with hno | ⟨l₁, a, x, l₂, rfl, hl₁, hx⟩
  · exact .inr fun c hc => of_decide_eq_false (hno c hc)
  · exact .inl ⟨l₁, a, x, l₂, ⟨hs, fun c hc => of_decide_eq_false (hl₁ c hc),
      of_decide_eq_true hx⟩, rfl⟩

omit [DecidableEq κ] in
/-- With distinct keys, every cell is the first one with its key. -/
theorem Segment.firstAt (hs : Segment h p (l₁ ++ (a, x) :: l₂) none)
    (hl : Keyed.Distinct key ((l₁ ++ (a, x) :: l₂).map Prod.snd)) :
    FirstAt h p key (key x) l₁ a x l₂ where
  segment := hs
  ne c hc heq := by
    rw [Keyed.Distinct, List.map_map, List.map_append, List.nodup_append] at hl
    exact hl.2.2 _ (List.mem_map_of_mem hc) _ (List.mem_map_of_mem List.mem_cons_self) heq
  key_eq := rfl

omit [DecidableEq κ] in
/-- Cells without a key have values without it. -/
theorem notMem_keys (hl : ∀ c ∈ l, key c.2 ≠ k) : k ∉ (l.map Prod.snd).map key := by
  rw [List.map_map]
  intro hmem
  obtain ⟨c, hc, hkey⟩ := List.mem_map.1 hmem
  exact hl c hc hkey

/-- A walk that looks for a key that is not there ends at the end. -/
theorem walk_notMem (hs : Segment h p l none) (hl : ∀ c ∈ l, key c.2 ≠ k) {stop : α → Bool}
    {prev : Ptr} (hstop : ∀ y, stop y = decide (key y = k)) {n : ℕ} (hn : h.keys.card ≤ n) :
    walk h stop n prev p = .ok (lastPtr prev l, none) := by
  refine walk_end hs (fun c hc => ?_) (hs.length_le.trans hn)
  rw [hstop]
  exact decide_eq_false (hl c hc)

section

variable (hat : FirstAt h p key k l₁ a x l₂)
include hat

/-- Its value is the one with the key. -/
theorem FirstAt.find : Keyed.find key (l₁.map Prod.snd ++ x :: l₂.map Prod.snd) k = some x :=
  Keyed.find_append_cons (notMem_keys hat.ne) hat.key_eq

omit [DecidableEq κ] in
/-- The cell holds the value. -/
theorem FirstAt.exists_cell : ∃ c, h.lookup a = some c ∧ c.val = x :=
  let ⟨c, hc, hx, _⟩ := hat.segment.split
  ⟨c, hc, hx⟩

/-- A walk that looks for the key ends at the cell. -/
theorem FirstAt.walk {stop : α → Bool} {prev : Ptr} (hstop : ∀ y, stop y = decide (key y = k))
    {n : ℕ} (hn : h.keys.card ≤ n) : walk h stop n prev p = .ok (lastPtr prev l₁, some a) := by
  have hlen := hat.segment.length_le
  rw [List.length_append, List.length_cons] at hlen
  refine walk_found hat.segment (fun c hc => ?_) ?_ (by omega)
  · rw [hstop]
    exact decide_eq_false (hat.ne c hc)
  · rw [hstop]
    exact decide_eq_true hat.key_eq

/-- Storing to the cell changes the first record with the key. -/
theorem FirstAt.store {c : Cell α} (hc : h.lookup a = some c) (f : α → α) :
    Segment (h.insert a { c with val := f x }) p (l₁ ++ (a, f x) :: l₂) none ∧
      (l₁ ++ (a, f x) :: l₂).map Prod.snd =
        Keyed.modify key k f (l₁.map Prod.snd ++ x :: l₂.map Prod.snd) := by
  refine ⟨hat.segment.store hc (f x), ?_⟩
  rw [Keyed.modify_append_cons (notMem_keys hat.ne) hat.key_eq, List.map_append, List.map_cons]

end

end

end CoapBroker.PtrList
