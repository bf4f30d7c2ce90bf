import CoapBroker.Lib.CStr

/-!
# Buffers with checked accesses

The memory of a string or of an array that has been allocated (`Buf`): its bytes, those that have
not been written yet being left open. Reading (`load`) and writing (`store`) give an error with
the index when this is negative or not below the size, and reading does so before anything has
been written. The functions of the C library go through memory in this way, byte by byte.

What they come to within the bounds is said on buffers that hold a string (`text`): from an
offset in the string, `strlen` is the length of the rest (`strlen_text`), `strchr` finds the first
occurrence in it (`strchr_text`), and copying takes it over (`strncpy_text`, `strcpy_text`) as long
as there is room.
-/

namespace CoapBroker

/-- An access that is refused, with its index. -/
inductive Access
  | read (i : ℤ)
  | write (i : ℤ)
  deriving DecidableEq

/-- The bytes of a buffer, as far as they have been written. -/
abbrev Buf := List (Option Byte)

namespace Buf

/-- A buffer nothing has been written to. -/
def malloc (size : ℕ) : Buf := List.replicate size none

/-- Reading the byte at an index. -/
def load (m : Buf) (i : ℤ) : Except Access Byte :=
  if i < 0 then .error (.read i)
  else
    match m[i.toNat]? with
    | some (some b) => .ok b
    | _ => .error (.read i)

/-- Writing the byte at an index. -/
def store (m : Buf) (i : ℤ) (b : Byte) : Except Access Buf :=
  if i < 0 ∨ m.length ≤ i then .error (.write i) else .ok (m.set i.toNat (some b))

/-- The number of bytes before the first one that `stop` holds of, `i` being the index of the
    first byte. -/
def scan (stop : Byte → Bool) (i : ℤ) : Buf → Except Access ℕ
  | some b :: m => if stop b then .ok 0 else (scan stop (i + 1) m).map (· + 1)
  | none :: _ | [] => .error (.read i)

/-- Scanning from the pointer `p` on. -/
def scanFrom (m : Buf) (p : ℤ) (stop : Byte → Bool) : Except Access ℕ :=
  if p < 0 then .error (.read p) else scan stop p (m.drop p.toNat)

/-- `strlen(m + p)`. -/
def strlen (m : Buf) (p : ℤ) : Except Access ℕ := m.scanFrom p (· = 0)

/-- `strcspn(m + p, c)`, for a single character. -/
def strcspn (m : Buf) (p : ℤ) (c : Byte) : Except Access ℕ :=
  m.scanFrom p fun b => b = c || b = 0

/-- `strchr(m + p, c)`, as an index (`NULL` when there is none). -/
def strchr (m : Buf) (p : ℤ) (c : Byte) : Except Access (Option ℤ) := do
  let n ← m.strcspn p c
  let b ← m.load (p + n)
  .ok (if b = c then some (p + n) else none)

/-- Writing `n` zeros. -/
def fill (dst : Buf) (d : ℤ) : ℕ → Except Access Buf
  | 0 => .ok dst
  | n + 1 => do
    let dst ← dst.store d 0
    fill dst (d + 1) n

/-- `strncpy(dst + d, src + s, n)`: after the end of the string, zeros are written. -/
def strncpy (dst : Buf) (d : ℤ) (src : Buf) (s : ℤ) : ℕ → Except Access Buf
  | 0 => .ok dst
  | n + 1 => do
    let b ← src.load s
    let dst ← dst.store d b
    if b = 0 then fill dst (d + 1) n else strncpy dst (d + 1) src (s + 1) n

/-- `strcpy(dst + d, src + s)`: copying up to the terminating `NUL`, and this. -/
def strcpy (dst : Buf) (d : ℤ) (src : Buf) (s : ℤ) : Except Access Buf := do
  let n ← src.strlen s
  let dst ← dst.strncpy d src s n
  dst.store (d + n) 0

/-- `memcpy(dst + d, src + s, n)`. -/
def memcpy (dst : Buf) (d : ℤ) (src : Buf) (s : ℤ) : ℕ → Except Access Buf
  | 0 => .ok dst
  | n + 1 => do
    let b ← src.load s
    let dst ← dst.store d b
    memcpy dst (d + 1) src (s + 1) n

/-- Writing some bytes. -/
def write (dst : Buf) (d : ℤ) : List Byte → Except Access Buf
  | [] => .ok dst
  | b :: s => do
    let dst ← dst.store d b
    write dst (d + 1) s

/-- `snprintf(dst + d, size, ...)` when the output is `s`: what there is room for is written and
    terminated, and the length of the output is returned. -/
def snprintf (dst : Buf) (d : ℤ) (size : ℕ) (s : List Byte) : Except Access (Buf × ℕ) := do
  let dst ← if size = 0 then .ok dst else dst.write d (s.take (size - 1) ++ [0])
  .ok (dst, s.length)

/-- Testing the `n` bytes from the index `i` on, up to the first one `p` does not hold of. -/
def allFrom (m : Buf) (p : Byte → Bool) (i : ℤ) : ℕ → Except Access Bool
  | 0 => .ok true
  | n + 1 => do
    let b ← m.load i
    if p b then allFrom m p (i + 1) n else .ok false

/-! ## Buffers that hold a string -/

/-- A buffer with the string `s`, and anything behind it. -/
def text (s : List Byte) (rest : Buf) : Buf := s.map some ++ some 0 :: rest

theorem text_append (u v : List Byte) (rest : Buf) :
    text (u ++ v) rest = u.map some ++ text v rest := by
  rw [text, text, List.map_append, List.append_assoc]

variable {s u v w : List Byte} {rest m m₁ m₂ : Buf} {b c : Byte}

theorem load_append_cons : load (m₁ ++ some b :: m₂) m₁.length = .ok b := by
  rw [load, if_neg (by omega), Int.toNat_natCast, List.getElem?_append_right le_rfl, Nat.sub_self]
  rfl

theorem store_append_cons {x : Option Byte} :
    store (m₁ ++ x :: m₂) m₁.length b = .ok (m₁ ++ some b :: m₂) := by
  rw [store, if_neg, Int.toNat_natCast, List.set_append_right _ _ le_rfl, Nat.sub_self]
  · rfl
  · rw [List.length_append, List.length_cons]
    omega

/-- Reading the bytes of a string, its terminating `NUL` included. -/
theorem load_text_append : load (text (u ++ v) rest) u.length = .ok (v.head?.getD 0) := by
  have hlen : (u.length : ℤ) = (u.map some).length := by rw [List.length_map]
  rw [text_append, hlen]
  rcases v with _ | ⟨b, v⟩
  · exact load_append_cons
  · exact load_append_cons

theorem load_text {i : ℕ} (hi : i ≤ s.length) :
    load (text s rest) i = .ok (s[i]?.getD 0) := by
  have h := @load_text_append (s.take i) (s.drop i) rest
  rwa [List.take_append_drop, List.length_take_of_le hi, List.head?_drop] at h

/-- Scanning the rest of a string. -/
theorem scanFrom_text {stop : Byte → Bool} (hstop : stop 0 = true) :
    scanFrom (text (u ++ v) rest) u.length stop = .ok (v.takeWhile fun b => !stop b).length := by
  have hscan : ∀ i, scan stop i (text v rest) = .ok (v.takeWhile fun b => !stop b).length := by
    induction v with
    | nil => exact fun i => if_pos hstop
    | cons b v ih =>
      intro i
      change (if stop b then Except.ok 0 else (scan stop (i + 1) (text v rest)).map (· + 1)) = _
      rw [List.takeWhile_cons]
      by_cases hb : stop b = true
      · rw [if_pos hb, hb]
        rfl
      · rw [if_neg hb, ih, eq_false_of_ne_true hb]
        rfl
  have hdrop : (text (u ++ v) rest).drop u.length = text v rest := by
    rw [text_append, List.drop_left' (by rw [List.length_map])]
  rw [scanFrom, if_neg (by omega), Int.toNat_natCast, hdrop, hscan]

theorem strlen_text (hv : (0 : Byte) ∉ v) :
    strlen (text (u ++ v) rest) u.length = .ok v.length := by
  have hall : ∀ b ∈ v, (!decide (b = (0 : Byte))) = true := fun b hb => by
    simpa using ne_of_mem_of_not_mem hb hv
  rw [strlen, scanFrom_text (by simp), List.takeWhile_eq_self_iff.2 hall]

theorem strlen_text_zero (hs : (0 : Byte) ∉ s) : strlen (text s rest) 0 = .ok s.length :=
  @strlen_text [] s rest hs

/-- In a string without the character, `strcspn` is the length. -/
theorem strcspn_text (hv : (0 : Byte) ∉ v) (hc : c ∉ v) :
    strcspn (text (u ++ v) rest) u.length c = .ok v.length := by
  have hall : ∀ b ∈ v, (!(decide (b = c) || decide (b = (0 : Byte)))) = true := fun b hb => by
    simpa using ⟨ne_of_mem_of_not_mem hb hc, ne_of_mem_of_not_mem hb hv⟩
  rw [strcspn, scanFrom_text (by simp), List.takeWhile_eq_self_iff.2 hall]

/-- Otherwise it is the number of characters before the first occurrence. -/
theorem strcspn_text_append (hw : (0 : Byte) ∉ w) (hc : c ∉ w) :
    strcspn (text (u ++ (w ++ c :: v)) rest) u.length c = .ok w.length := by
  have hall : ∀ b ∈ w, (!(decide (b = c) || decide (b = (0 : Byte)))) = true := fun b hb => by
    simpa using ⟨ne_of_mem_of_not_mem hb hc, ne_of_mem_of_not_mem hb hw⟩
  rw [strcspn, scanFrom_text (by simp), List.takeWhile_append_of_pos hall]
  simp

/-- In a string without the character, `strchr` finds nothing. -/
theorem strchr_text (hv : (0 : Byte) ∉ v) (hc : c ∉ v) (h0 : c ≠ 0) :
    strchr (text (u ++ v) rest) u.length c = .ok none := by
  have hend : load (text (u ++ v) rest) (u.length + v.length) = .ok 0 := by
    have h := @load_text_append (u ++ v) [] rest
    rwa [List.append_nil, List.length_append, Nat.cast_add] at h
  rw [strchr, strcspn_text hv hc]
  simp only [bind, Except.bind, hend, if_neg h0.symm]

/-- Otherwise it finds the first occurrence. -/
theorem strchr_text_append (hw : (0 : Byte) ∉ w) (hc : c ∉ w) :
    strchr (text (u ++ (w ++ c :: v)) rest) u.length c = .ok (some (u.length + w.length)) := by
  have hat : load (text (u ++ (w ++ c :: v)) rest) (u.length + w.length) = .ok c := by
    have h := @load_text_append (u ++ w) (c :: v) rest
    rwa [List.append_assoc, List.length_append, Nat.cast_add] at h
  rw [strchr, strcspn_text_append hw hc]
  simp only [bind, Except.bind, hat, if_true]

/-! ## Copying -/

/-- Copying a part of a string, behind what has been written, if there is room for it. -/
theorem strncpy_text {d : Buf} (hv : (0 : Byte) ∉ v) (hroom : v.length ≤ m.length) :
    strncpy (d ++ m) d.length (text (u ++ (v ++ w)) rest) u.length v.length =
      .ok (d ++ v.map some ++ m.drop v.length) := by
  induction v generalizing d m u with
  | nil => simp [strncpy]
  | cons b v ih =>
    rw [List.mem_cons, not_or] at hv
    rcases m with _ | ⟨x, m⟩
    · exact absurd hroom (by simp)
    have hload : load (text (u ++ (b :: v ++ w)) rest) u.length = .ok b := load_text_append
    have hu : u ++ (b :: v ++ w) = (u ++ [b]) ++ (v ++ w) := by simp
    have hd : d ++ some b :: m = (d ++ [some b]) ++ m := by simp
    have hih := @ih (m := m) (u := u ++ [b]) (d := d ++ [some b]) hv.2 (by simpa using hroom)
    rw [List.length_append, List.length_append, List.length_singleton, List.length_singleton,
      Nat.cast_add, Nat.cast_add, Nat.cast_one, ← hu, ← hd] at hih
    rw [List.length_cons, strncpy, hload]
    simp only [bind, Except.bind, store_append_cons, if_neg (Ne.symm hv.1)]
    rw [hih]
    simp

/-- Writing the terminating `NUL` behind what has been copied. -/
theorem store_zero (hroom : v.length < m.length) :
    store (v.map some ++ m.drop v.length) v.length 0 = .ok (text v (m.drop (v.length + 1))) := by
  have hlen : (v.length : ℤ) = (v.map some).length := by rw [List.length_map]
  rw [List.drop_eq_getElem_cons hroom, hlen]
  exact store_append_cons

/-- Copying a part of a string and terminating it, if there is room for both. -/
theorem strncpy_store_text (hv : (0 : Byte) ∉ v) (hroom : v.length < m.length) :
    (do
      let dst ← strncpy m 0 (text (u ++ (v ++ w)) rest) u.length v.length
      dst.store v.length 0) = .ok (text v (m.drop (v.length + 1))) := by
  have hcopy := @strncpy_text u v w rest m [] hv hroom.le
  rw [List.nil_append, List.nil_append, List.length_nil, Nat.cast_zero] at hcopy
  rw [hcopy]
  exact store_zero hroom

/-- Copying a part of a string to a buffer of exactly its size. -/
theorem strncpy_store_malloc (hv : (0 : Byte) ∉ v) :
    (do
      let dst ← strncpy (malloc (v.length + 1)) 0 (text (u ++ (v ++ w)) rest) u.length v.length
      dst.store v.length 0) = .ok (text v []) := by
  have hlen : (malloc (v.length + 1)).length = v.length + 1 := List.length_replicate
  have hcopy := @strncpy_store_text u v w rest (malloc (v.length + 1)) hv (by omega)
  rwa [List.drop_of_length_le hlen.le] at hcopy

theorem strncpy_store_bind {α : Type} (hv : (0 : Byte) ∉ v) (f : Buf → Except Access α) :
    (do
      let dst ← strncpy (malloc (v.length + 1)) 0 (text (u ++ (v ++ w)) rest) u.length v.length
      let dst ← dst.store v.length 0
      f dst) = f (text v []) := by
  rw [← bind_assoc, strncpy_store_malloc hv]
  rfl

/-- Copying the rest of a string, if there is room for it. -/
theorem strcpy_text (hv : (0 : Byte) ∉ v) (hroom : v.length < m.length) :
    strcpy m 0 (text (u ++ v) rest) u.length = .ok (text v (m.drop (v.length + 1))) := by
  have hcopy := @strncpy_store_text u v [] rest m hv hroom
  rw [List.append_nil] at hcopy
  rw [strcpy, strlen_text hv, ← hcopy]
  simp only [bind, Except.bind, zero_add]

/-- Copying some bytes behind what has been written, if there is room for them. -/
theorem memcpy_append {d : Buf} (hroom : v.length ≤ m.length) :
    memcpy (d ++ m) d.length (m₁ ++ (v.map some ++ m₂)) m₁.length v.length =
      .ok (d ++ v.map some ++ m.drop v.length) := by
  induction v generalizing d m m₁ with
  | nil => simp [memcpy]
  | cons b v ih =>
    rcases m with _ | ⟨x, m⟩
    · exact absurd hroom (by simp)
    have hsrc : m₁ ++ ((b :: v).map some ++ m₂) = (m₁ ++ [some b]) ++ (v.map some ++ m₂) := by simp
    have hload : load (m₁ ++ ((b :: v).map some ++ m₂)) m₁.length = .ok b := load_append_cons
    have hd : d ++ some b :: m = (d ++ [some b]) ++ m := by simp
    have hih := @ih m (m₁ ++ [some b]) (d ++ [some b]) (by simpa using hroom)
    rw [List.length_append, List.length_append, List.length_singleton,
      Nat.cast_add, Nat.cast_add, Nat.cast_one, ← hsrc, ← hd] at hih
    rw [List.length_cons, memcpy, hload]
    simp only [bind, Except.bind, store_append_cons]
    rw [hih]
    simp

/-- Writing some bytes behind what has been written, if there is room for them. -/
theorem write_append {d : Buf} (hroom : v.length ≤ m.length) :
    write (d ++ m) d.length v = .ok (d ++ v.map some ++ m.drop v.length) := by
  induction v generalizing d m with
  | nil => simp [write]
  | cons b v ih =>
    rcases m with _ | ⟨x, m⟩
    · exact absurd hroom (by simp)
    have hd : d ++ some b :: m = (d ++ [some b]) ++ m := by simp
    have hih := @ih m (d ++ [some b]) (by simpa using hroom)
    rw [List.length_append, List.length_singleton, Nat.cast_add, Nat.cast_one, ← hd] at hih
    rw [write]
    simp only [bind, Except.bind, store_append_cons]
    rw [hih]
    simp

/-- Testing a part of a string. -/
theorem allFrom_text {p : Byte → Bool} :
    allFrom (text (u ++ (v ++ w)) rest) p u.length v.length = .ok (v.all p) := by
  induction v generalizing u with
  | nil => rfl
  | cons b v ih =>
    have hload : load (text (u ++ (b :: v ++ w)) rest) u.length = .ok b := load_text_append
    have hu : u ++ (b :: v ++ w) = (u ++ [b]) ++ (v ++ w) := by simp
    have hih := @ih (u ++ [b])
    rw [List.length_append, List.length_singleton, Nat.cast_add, Nat.cast_one, ← hu] at hih
    rw [List.length_cons, allFrom, hload, List.all_cons]
    simp only [bind, Except.bind, hih]
    cases p b <;> rfl

theorem allFrom_text_zero {p : Byte → Bool} :
    allFrom (text s rest) p 0 s.length = .ok (s.all p) := by
  have h := @allFrom_text [] s [] rest p
  rwa [List.append_nil] at h

/-- Before the beginning of a buffer, nothing can be written. -/
theorem store_neg {i : ℤ} (hi : i < 0) : store m i b = .error (.write i) := if_pos (.inl hi)

end Buf

end CoapBroker
