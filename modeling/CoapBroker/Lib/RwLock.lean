import CoapBroker.Lib.PtrList
import Mathlib.Logic.Function.Basic

/-!
# Read-write locks on the cells of a heap

Programs of a single thread (`Prog`) on a heap of cells that have a read-write lock of every
kind. The state of a lock is what the thread holds of it (`Lock`). These are faults
(`LockFault`): requesting a lock that the thread itself stands in the way of, releasing one
that it does not hold, destroying one that is held, and using one that is not initialised, or
anything of a cell that is not allocated.

A run without a fault (`Runs`) goes along the program (`Runs.bind`), with a rule for every
operation. Releasing a lock leads back to the state it was free in (`runs_unlock`), so that a
walk that takes the lock of one cell at a time (`walk`) ends in the state it has started in, but
for the lock of the cell it has found (`runs_walk`).
-/

namespace CoapBroker.RwLock

open PtrList

/-- A read-write lock, as the thread holds it. -/
inductive Lock
  /-- Not initialised, or destroyed. -/
  | uninit
  | free
  /-- Held for reading `n + 1` times. -/
  | read (n : ℕ)
  | write
  deriving DecidableEq

/-- What makes a program fail. -/
inductive LockFault
  /-- Requesting a lock that the thread holds for writing, or holds and wants for writing. -/
  | deadlock
  | notHeld
  /-- Initialising or destroying a lock that is in use. -/
  | busy
  | uninit
  | heap (f : HeapFault)
  deriving DecidableEq

namespace Lock

def rdlock : Lock → Except LockFault Lock
  | .uninit => .error .uninit
  | .free => .ok (.read 0)
  | .read n => .ok (.read (n + 1))
  | .write => .error .deadlock

def wrlock : Lock → Except LockFault Lock
  | .uninit => .error .uninit
  | .free => .ok .write
  | .read _ => .error .deadlock
  | .write => .error .deadlock

def unlock : Lock → Except LockFault Lock
  | .uninit => .error .uninit
  | .free => .error .notHeld
  | .read 0 => .ok .free
  | .read (n + 1) => .ok (.read n)
  | .write => .ok .free

def init : Lock → Except LockFault Lock
  | .uninit => .ok .free
  | _ => .error .busy

def destroy : Lock → Except LockFault Lock
  | .uninit => .error .uninit
  | .free => .ok .uninit
  | .read _ => .error .busy
  | .write => .error .busy

end Lock

/-- Cells with a pointer to the first one, and the locks of every cell. -/
structure Locked (α κ : Type) where
  heap : Heap α
  head : Ptr
  locks : ℕ × κ → Lock

namespace Locked

variable {α κ : Type} {s : Locked α κ} {a b : ℕ} {k k' : κ} {x y : Lock} {h : Heap α}

/-- All locks of all cells are free. -/
def Free (s : Locked α κ) : Prop := ∀ a ∈ s.heap, ∀ k, s.locks (a, k) = .free

def setHeap (s : Locked α κ) (heap : Heap α) : Locked α κ := { s with heap }

@[simp] theorem setHeap_heap : (s.setHeap h).heap = h := rfl

@[simp] theorem setHeap_locks : (s.setHeap h).locks = s.locks := rfl

@[simp] theorem setHeap_setHeap {h' : Heap α} : (s.setHeap h).setHeap h' = s.setHeap h' := rfl

def setHead (s : Locked α κ) (head : Ptr) : Locked α κ := { s with head }

/-- Writing a cell keeps the locks. -/
theorem Free.insert (hs : s.Free) (ha : a ∈ s.heap) (c : Cell α) :
    (s.setHeap (s.heap.insert a c)).Free := by
  intro b hb k
  rcases Finmap.mem_insert.1 hb with rfl | hb
  · exact hs b ha k
  · exact hs b hb k

/-- A cell more, with its locks. -/
def addCell (s : Locked α κ) (a : ℕ) (c : Cell α) (l : κ → Lock) : Locked α κ where
  heap := s.heap.insert a c
  head := s.head
  locks := fun i => if i.1 = a then l i.2 else s.locks i

variable {c : Cell α} {l : κ → Lock}

@[simp] theorem addCell_locks_self : (s.addCell a c l).locks (a, k) = l k := if_pos rfl

@[simp] theorem addCell_locks_of_ne (hne : b ≠ a) :
    (s.addCell a c l).locks (b, k) = s.locks (b, k) :=
  if_neg hne

theorem Free.addCell (hs : s.Free) (a : ℕ) (c : Cell α) : (s.addCell a c fun _ => .free).Free := by
  intro b hb k
  by_cases hne : b = a
  · rw [hne, addCell_locks_self]
  · rw [addCell_locks_of_ne hne]
    exact hs b ((Finmap.mem_insert.1 hb).resolve_left hne) k

variable [DecidableEq κ]

def setLock (s : Locked α κ) (a : ℕ) (k : κ) (x : Lock) : Locked α κ :=
  { s with locks := Function.update s.locks (a, k) x }

/-- The lock of a cell, if there is one, is held for reading. -/
def reading (s : Locked α κ) (k : κ) : Ptr → Locked α κ
  | none => s
  | some a => s.setLock a k (.read 0)

@[simp] theorem setLock_heap : (s.setLock a k x).heap = s.heap := rfl

theorem setHeap_setLock : (s.setLock a k x).setHeap h = (s.setHeap h).setLock a k x := rfl

theorem setHead_setLock {p : Ptr} :
    (s.setLock a k x).setHead p = (s.setHead p).setLock a k x := rfl

@[simp] theorem setLock_locks_self : (s.setLock a k x).locks (a, k) = x :=
  Function.update_self ..

@[simp] theorem setLock_locks_of_ne (hne : b ≠ a) :
    (s.setLock a k x).locks (b, k') = s.locks (b, k') :=
  Function.update_of_ne (fun heq => hne (congrArg Prod.fst heq)) ..

@[simp] theorem setLock_locks_of_kind_ne (hne : k' ≠ k) :
    (s.setLock a k x).locks (b, k') = s.locks (b, k') :=
  Function.update_of_ne (fun heq => hne (congrArg Prod.snd heq)) ..

/-- Setting a lock of the new cell. -/
theorem addCell_setLock_self :
    (s.addCell a c l).setLock a k x = s.addCell a c (Function.update l k x) := by
  rw [addCell, addCell, setLock, mk.injEq]
  refine ⟨rfl, rfl, ?_⟩
  funext ⟨b, k'⟩
  by_cases hb : b = a
  · by_cases hk : k' = k
    · simp [hb, hk]
    · simp [hb, hk, Function.update_of_ne]
  · simp [hb, Function.update_of_ne]

/-- The locks of another cell do not depend on the new one. -/
theorem addCell_setLock_of_ne (hne : b ≠ a) :
    (s.addCell a c l).setLock b k x = (s.setLock b k x).addCell a c l := by
  rw [addCell, addCell, setLock, setLock, mk.injEq]
  refine ⟨rfl, rfl, ?_⟩
  funext ⟨d, k'⟩
  by_cases hd : (d, k') = (b, k)
  · cases hd
    simp [hne]
  · simp [hd, Function.update_of_ne]

/-- Setting a lock back. -/
theorem setLock_setLock (hx : s.locks (a, k) = y) : (s.setLock a k x).setLock a k y = s := by
  rw [setLock, setLock, Function.update_idem, ← hx, Function.update_eq_self]

end Locked

variable {α κ β γ : Type}

/-- A program of the thread. -/
abbrev Prog (α κ β : Type) := StateT (Locked α κ) (Except LockFault) β

/-- The program does not fail from `s`: it returns `x` and leaves `t`. -/
def Runs (p : Prog α κ β) (s : Locked α κ) (x : β) (t : Locked α κ) : Prop := p s = .ok (x, t)

section

variable {p : Prog α κ β} {f : β → Prog α κ γ} {s t u : Locked α κ} {x : β} {y : γ}

theorem runs_pure : Runs (pure x : Prog α κ β) s x s := rfl

theorem Runs.bind (hp : Runs p s x t) (hf : Runs (f x) t y u) : Runs (p >>= f) s y u := by
  rw [Runs] at hp
  change (p s >>= fun r => f r.1 r.2) = _
  rw [hp]
  exact hf

/-- Running a program without its result. -/
theorem Runs.discard (hp : Runs p s x t) : Runs (discard p) s () t := by
  rw [Runs] at hp
  change (p s >>= fun r => _) = _
  rw [hp]
  rfl

end

/-! ## Cells -/

/-- Reading a cell. -/
def load (a : ℕ) : Prog α κ (Cell α) := fun s =>
  match PtrList.load s.heap a with
  | .ok c => .ok (c, s)
  | .error f => .error (.heap f)

/-- Writing a cell. -/
def store (a : ℕ) (c : Cell α) : Prog α κ Unit := fun s =>
  if a ∈ s.heap then .ok ((), s.setHeap (s.heap.insert a c)) else .error (.heap .dangling)

/-- A new cell, whose locks are not initialised. -/
def malloc (m : Malloc) (c : Cell α) : Prog α κ ℕ := fun s =>
  let a := m.ptr s.heap.keys
  .ok (a, s.addCell a c fun _ => .uninit)

def free (a : ℕ) : Prog α κ Unit := fun s =>
  if a ∈ s.heap then .ok ((), s.setHeap (s.heap.erase a)) else .error (.heap .dangling)

/-- The pointer to the first cell. -/
def head : Prog α κ Ptr := fun s => .ok (s.head, s)

def setHead (p : Ptr) : Prog α κ Unit := fun s => .ok ((), s.setHead p)

/-- The number of cells, which a walk through a list does not exceed. -/
def size : Prog α κ ℕ := fun s => .ok (s.heap.keys.card, s)

/-- Coming back to a cell. -/
def cyclic : Prog α κ β := fun _ => .error (.heap .cyclic)

variable {s : Locked α κ} {a : ℕ} {c : Cell α}

theorem runs_load (hc : s.heap.lookup a = some c) : Runs (load a) s c s := by
  rw [Runs, load, load_of_lookup hc]

theorem runs_store (ha : a ∈ s.heap) : Runs (store a c) s () (s.setHeap (s.heap.insert a c)) := by
  rw [Runs, store, if_pos ha]

theorem runs_malloc {m : Malloc} : Runs (malloc m c) s (m.ptr s.heap.keys)
    (s.addCell (m.ptr s.heap.keys) c fun _ => .uninit : Locked α κ) := rfl

theorem runs_free (ha : a ∈ s.heap) : Runs (free a) s () (s.setHeap (s.heap.erase a)) := by
  rw [Runs, free, if_pos ha]

theorem runs_head : Runs head s s.head s := rfl

theorem runs_setHead {p : Ptr} : Runs (setHead p) s () (s.setHead p) := rfl

theorem runs_size : Runs size s s.heap.keys.card s := rfl

/-! ## Locks -/

variable [DecidableEq κ] {k : κ} {x : Lock}

/-- Changing a lock of a cell. -/
def onLock (f : Lock → Except LockFault Lock) (a : ℕ) (k : κ) : Prog α κ Unit := fun s =>
  if a ∈ s.heap then
    match f (s.locks (a, k)) with
    | .ok x => .ok ((), s.setLock a k x)
    | .error e => .error e
  else .error (.heap .dangling)

def rdlock (a : ℕ) (k : κ) : Prog α κ Unit := onLock Lock.rdlock a k

def wrlock (a : ℕ) (k : κ) : Prog α κ Unit := onLock Lock.wrlock a k

def unlock (a : ℕ) (k : κ) : Prog α κ Unit := onLock Lock.unlock a k

def init (a : ℕ) (k : κ) : Prog α κ Unit := onLock Lock.init a k

def destroy (a : ℕ) (k : κ) : Prog α κ Unit := onLock Lock.destroy a k

theorem runs_onLock {f : Lock → Except LockFault Lock} (ha : a ∈ s.heap)
    (hx : f (s.locks (a, k)) = .ok x) : Runs (onLock f a k) s () (s.setLock a k x) := by
  rw [Runs, onLock, if_pos ha, hx]

theorem runs_rdlock (ha : a ∈ s.heap) (hfree : s.locks (a, k) = .free) :
    Runs (rdlock a k) s () (s.setLock a k (.read 0)) :=
  runs_onLock ha (by rw [hfree, Lock.rdlock])

theorem runs_wrlock (ha : a ∈ s.heap) (hfree : s.locks (a, k) = .free) :
    Runs (wrlock a k) s () (s.setLock a k .write) :=
  runs_onLock ha (by rw [hfree, Lock.wrlock])

/-- Releasing a lock leads back to the state in which it was free. -/
theorem runs_unlock (hx : x.unlock = .ok .free) (ha : a ∈ s.heap)
    (hfree : s.locks (a, k) = .free) : Runs (unlock a k) (s.setLock a k x) () s := by
  have h : Runs (unlock a k) (s.setLock a k x) () ((s.setLock a k x).setLock a k .free) :=
    runs_onLock ha (by rw [Locked.setLock_locks_self, hx])
  rwa [Locked.setLock_setLock hfree] at h

theorem runs_init (ha : a ∈ s.heap) (hx : s.locks (a, k) = .uninit) :
    Runs (init a k) s () (s.setLock a k .free) :=
  runs_onLock ha (by rw [hx, Lock.init])

theorem runs_destroy (ha : a ∈ s.heap) (hfree : s.locks (a, k) = .free) :
    Runs (destroy a k) s () (s.setLock a k .uninit) :=
  runs_onLock ha (by rw [hfree, Lock.destroy])

/-! ## Walking -/

/-- Walking on from `currentPtr`, taking the lock of one cell at a time, up to a cell whose value
    satisfies `stop`, which stays locked, or to the end. -/
def walk (k : κ) (stop : α → Bool) : ℕ → Ptr → Ptr → Prog α κ (Ptr × Ptr)
  | _, previousPtr, none => pure (previousPtr, none)
  | 0, _, some _ => cyclic
  | n + 1, previousPtr, some a => do
    rdlock a k
    let c ← load a
    if stop c.val then pure (previousPtr, some a)
    else do
      unlock a k
      walk k stop n (some a) c.nextPtr

/-- With the locks free, it ends where a walk without locks ends. -/
theorem runs_walk (hs : s.Free) {stop : α → Bool} {n : ℕ} {prev p : Ptr} {r : Ptr × Ptr}
    (h : PtrList.walk s.heap stop n prev p = .ok r) :
    Runs (walk k stop n prev p) s r (s.reading k r.2) := by
  induction n generalizing prev p with
  | zero =>
    rcases p with _ | a
    · rw [PtrList.walk] at h
      cases h
      exact runs_pure
    · cases h
  | succ n ih =>
    rcases p with _ | a
    · rw [PtrList.walk] at h
      cases h
      exact runs_pure
    · rw [PtrList.walk] at h
      rcases hc : s.heap.lookup a with _ | c
      · rw [PtrList.load, hc] at h
        cases h
      · have ha : a ∈ s.heap := Finmap.mem_of_lookup_eq_some hc
        rw [load_of_lookup hc] at h
        rw [walk]
        refine .bind (runs_rdlock ha (hs a ha k)) (.bind (runs_load hc) ?_)
        by_cases hstop : stop c.val
        · -- the lock stays held
          simp only [if_pos hstop] at h ⊢
          cases h
          exact runs_pure
        · -- releasing it leads back to the state the walk goes on from
          simp only [if_neg hstop] at h ⊢
          exact .bind (runs_unlock rfl ha (hs a ha k)) (ih h)

end CoapBroker.RwLock
