import CoapBroker.Lib.PtrList

/-!
# Programs that allocate memory

Programs on a memory of blocks (`Prog`), each of which has a content once it has been written.
Freeing a pointer that is uninitialised, or that points to no block, is a fault, as is reading or
writing through it. Where a new block lies is left to the allocation (`Malloc`).

A postcondition (`Gives`) is proved along the program (`Gives.bind`), and a fault where it comes
up (`run_bind_error`, `Gives.run_error`). What a program has allocated is said relative to a
memory from before (`Owns`): the blocks in a list are there on top of it. A block may be taken
from anywhere in the list (`Owns.perm`), and without any left, the memory is the one from before
(`owns_nil_iff`).
-/

namespace CoapBroker.Memory

open PtrList (Malloc)

variable {α β γ : Type}

/-- A pointer variable. -/
inductive Ptr
  | null
  | uninit
  | block (a : ℕ)
  deriving DecidableEq

/-- The blocks that are allocated, with their contents if they have been written. -/
abbrev Mem (α : Type) := Finmap fun _ : ℕ => Option α

/-- What makes a program fail. -/
inductive MemFault
  /-- Using a pointer that has not been set. -/
  | uninitialized
  /-- Using a pointer to no block, because it is `NULL` or has been freed. -/
  | notAllocated
  /-- Reading a block that has not been written. -/
  | unwritten
  deriving DecidableEq

/-- A program on a memory. -/
abbrev Prog (α β : Type) := StateT (Mem α) (Except MemFault) β

/-- `malloc`. -/
def malloc (m : Malloc) : Prog α Ptr := fun h =>
  .ok (.block (m.ptr h.keys), h.insert (m.ptr h.keys) none)

/-- The block a pointer points to, and its content. -/
def deref (h : Mem α) : Ptr → Except MemFault (ℕ × Option α)
  | .null => .error .notAllocated
  | .uninit => .error .uninitialized
  | .block a =>
    match h.lookup a with
    | some x => .ok (a, x)
    | none => .error .notAllocated

/-- Reading a block. -/
def load (p : Ptr) : Prog α α := fun h =>
  match deref h p with
  | .ok (_, some x) => .ok (x, h)
  | .ok (_, none) => .error .unwritten
  | .error f => .error f

/-- Writing a block. -/
def store (p : Ptr) (x : α) : Prog α Unit := fun h =>
  match deref h p with
  | .ok (a, _) => .ok ((), h.insert a (some x))
  | .error f => .error f

/-- `free`. -/
def free (p : Ptr) : Prog α Unit := fun h =>
  if p = .null then .ok ((), h)
  else
    match deref h p with
    | .ok (a, _) => .ok ((), h.erase a)
    | .error f => .error f

/-- `realloc`, of a pointer to a block: the block may be moved. -/
def realloc (m : Malloc) (p : Ptr) : Prog α Ptr := fun h =>
  match deref h p with
  | .ok (a, x) =>
    let b := m.ptr (h.erase a).keys
    .ok (.block b, (h.erase a).insert b x)
  | .error f => .error f

/-! ## Postconditions -/

/-- The program does not fail, and what it returns and leaves satisfies `Q`. -/
def Gives (p : Prog α β) (h : Mem α) (Q : β → Mem α → Prop) : Prop :=
  ∃ x h', p.run h = .ok (x, h') ∧ Q x h'

variable {p : Prog α β} {f : β → Prog α γ} {h h₀ : Mem α} {Q : β → Mem α → Prop}
  {R : γ → Mem α → Prop} {e : MemFault}

theorem Gives.pure {x : β} (hQ : Q x h) : Gives (pure x) h Q := ⟨x, h, rfl, hQ⟩

theorem Gives.bind (hp : Gives p h Q) (hf : ∀ x h', Q x h' → Gives (f x) h' R) :
    Gives (p >>= f) h R := by
  obtain ⟨x, h', hrun, hQ⟩ := hp
  obtain ⟨y, h'', hrun', hR⟩ := hf x h' hQ
  refine ⟨y, h'', ?_, hR⟩
  rw [StateT.run_bind, hrun]
  exact hrun'

/-- A fault ends the program. -/
theorem run_bind_error (hp : p.run h = .error e) : (p >>= f).run h = .error e := by
  rw [StateT.run_bind, hp]
  rfl

/-- A fault comes up after a part that does not fail. -/
theorem Gives.run_error (hp : Gives p h Q) (hf : ∀ x h', Q x h' → (f x).run h' = .error e) :
    (p >>= f).run h = .error e := by
  obtain ⟨x, h', hrun, hQ⟩ := hp
  rw [StateT.run_bind, hrun]
  exact hf x h' hQ

/-! ## Allocated blocks -/

/-- The memory is `h₀` with the blocks of a list on top of it. -/
inductive Owns (h₀ : Mem α) : List (ℕ × Option α) → Mem α → Prop
  | nil : Owns h₀ [] h₀
  | cons {a : ℕ} {x : Option α} {l : List (ℕ × Option α)} {h : Mem α} :
    Owns h₀ l h → a ∉ h → Owns h₀ ((a, x) :: l) (h.insert a x)

variable {l l' : List (ℕ × Option α)} {a : ℕ} {x : Option α} {y : α}

theorem owns_nil_iff : Owns h₀ [] h ↔ h = h₀ :=
  ⟨fun ho => by cases ho; rfl, fun heq => heq ▸ .nil⟩

theorem owns_cons_iff :
    Owns h₀ ((a, x) :: l) h ↔ ∃ h', Owns h₀ l h' ∧ a ∉ h' ∧ h = h'.insert a x := by
  constructor
  · intro ho
    cases ho with
    | cons ho ha => exact ⟨_, ho, ha, rfl⟩
  · rintro ⟨h', ho, ha, rfl⟩
    exact .cons ho ha

/-- The order of the blocks does not matter. -/
theorem Owns.perm (ho : Owns h₀ l h) (hl : l.Perm l') : Owns h₀ l' h := by
  induction hl generalizing h with
  | nil => exact ho
  | cons c _ ih =>
    obtain ⟨h', ho', ha, rfl⟩ := owns_cons_iff.1 ho
    exact .cons (ih ho') ha
  | swap c d l =>
    obtain ⟨h', ho', ha, rfl⟩ := owns_cons_iff.1 ho
    obtain ⟨h'', ho'', hb, rfl⟩ := owns_cons_iff.1 ho'
    rw [Finmap.mem_insert, not_or] at ha
    rw [Finmap.insert_insert_of_ne _ (Ne.symm ha.1)]
    refine .cons (.cons ho'' ha.2) ?_
    rw [Finmap.mem_insert, not_or]
    exact ⟨Ne.symm ha.1, hb⟩
  | trans _ _ ih ih' => exact ih' (ih ho)

theorem Owns.swap {c d : ℕ × Option α} (ho : Owns h₀ (c :: d :: l) h) : Owns h₀ (d :: c :: l) h :=
  ho.perm (.swap d c l)

theorem Owns.swap_third {c d e : ℕ × Option α} (ho : Owns h₀ (c :: d :: e :: l) h) :
    Owns h₀ (e :: d :: c :: l) h :=
  ho.perm <| by simpa using (List.reverse_perm [c, d, e]).symm.append_right l

theorem erase_insert_of_notMem (ha : a ∉ h) : (h.insert a x).erase a = h := by
  refine Finmap.ext_lookup fun b => ?_
  by_cases hb : b = a
  · rw [hb, Finmap.lookup_erase, Finmap.lookup_eq_none.2 ha]
  · rw [Finmap.lookup_erase_ne hb, Finmap.lookup_insert_of_ne _ hb]

/-- A pointer to an owned block points to it. -/
theorem Owns.deref (ho : Owns h₀ ((a, x) :: l) h) : deref h (.block a) = .ok (a, x) := by
  obtain ⟨h', -, -, rfl⟩ := owns_cons_iff.1 ho
  rw [Memory.deref, Finmap.lookup_insert]

/-- A new block is owned. -/
theorem Owns.malloc (m : Malloc) (ho : Owns h₀ l h) :
    Gives (malloc m) h fun p h' => ∃ a, p = .block a ∧ Owns h₀ ((a, none) :: l) h' :=
  ⟨_, _, rfl, _, rfl, .cons ho fun ha => m.fresh h.keys (Finmap.mem_keys.2 ha)⟩

theorem Owns.load (ho : Owns h₀ ((a, some y) :: l) h) :
    Gives (load (.block a)) h fun z h' => y = z ∧ h = h' := by
  refine ⟨y, h, ?_, rfl, rfl⟩
  change Memory.load (.block a) h = _
  rw [Memory.load, ho.deref]

theorem Owns.store (ho : Owns h₀ ((a, x) :: l) h) (y : α) :
    Gives (store (.block a) y) h fun _ h' => Owns h₀ ((a, some y) :: l) h' := by
  obtain ⟨h', ho', ha, hh⟩ := owns_cons_iff.1 ho
  refine ⟨(), h.insert a (some y), ?_, ?_⟩
  · change Memory.store (.block a) y h = _
    rw [Memory.store, ho.deref]
  · rw [hh, Finmap.insert_insert]
    exact .cons ho' ha

theorem Owns.free (ho : Owns h₀ ((a, x) :: l) h) :
    Gives (free (.block a)) h fun _ h' => Owns h₀ l h' := by
  obtain ⟨h', ho', ha, hh⟩ := owns_cons_iff.1 ho
  refine ⟨(), h.erase a, ?_, ?_⟩
  · change Memory.free (.block a) h = _
    rw [Memory.free, if_neg (by simp), ho.deref]
  · rw [hh, erase_insert_of_notMem ha]
    exact ho'

/-- Moving a block keeps its content. -/
theorem Owns.realloc (m : Malloc) (ho : Owns h₀ ((a, x) :: l) h) :
    Gives (realloc m (.block a)) h fun p h' => ∃ b, p = .block b ∧ Owns h₀ ((b, x) :: l) h' := by
  obtain ⟨h', ho', ha, hh⟩ := owns_cons_iff.1 ho
  have herase : h.erase a = h' := hh ▸ erase_insert_of_notMem ha
  refine ⟨_, _, ?_, m.ptr h'.keys, rfl, .cons ho' fun hb => m.fresh h'.keys (Finmap.mem_keys.2 hb)⟩
  change Memory.realloc m (.block a) h = _
  rw [Memory.realloc, ho.deref]
  simp only [herase]

/-- Freeing `NULL` does nothing. -/
theorem free_null : (free .null : Prog α Unit).run h = .ok ((), h) := rfl

theorem free_uninit : (free .uninit : Prog α Unit).run h = .error .uninitialized := rfl

end CoapBroker.Memory
