import Mathlib.Data.List.Infix
import Mathlib.Data.List.TakeWhile
import Mathlib.Tactic

/-!
# C strings

A C string is a sequence of bytes none of which is `NUL`, the terminating one
being left out (`CStr`). Reading memory as a string stops at the first `NUL`
(`CStr.read`), so that everything read from a buffer is a string again; on
bytes without `NUL`, reading changes nothing (`CStr.read_of_notMem`).

Texts that consist of pieces put together with a separator come as
`[c].intercalate ss`; every text does (`exists_pieces`).

The functions of the C library the development needs are here too: `strstr`,
which finds a substring (`strstr_isSome`), the character classes of the `"C"`
locale, `strtol` in base ten with its saturation, `atoi`, and the decimal
conversion of `printf`.
-/

namespace CoapBroker

/-- A byte (`unsigned char`). -/
abbrev Byte := UInt8

instance : Coe Char Byte := ⟨Char.toUInt8⟩

/-- The bytes of an ASCII literal. -/
def ascii (s : String) : List Byte := s.toList.map Char.toUInt8

/-- A C string: the bytes before the terminating `NUL`. -/
@[ext] structure CStr where
  /-- The bytes of the string, without its terminating `NUL`. -/
  bytes : List Byte
  /-- No byte of a string is `NUL`. -/
  nul_free : (0 : Byte) ∉ bytes
  deriving DecidableEq

namespace CStr

/-- The string a pointer into the memory `mem` denotes: the bytes up to the
    first `NUL`. -/
def read (mem : List Byte) : CStr where
  bytes := mem.takeWhile (· ≠ 0)
  nul_free h := by simpa using List.mem_takeWhile_imp h

/-- The string of an ASCII literal. -/
def lit (s : String) : CStr := read (ascii s)

/-- The empty string. -/
def empty : CStr := ⟨[], List.not_mem_nil⟩

instance : Inhabited CStr := ⟨empty⟩

/-- The length of a string (`strlen`). -/
def length (s : CStr) : ℕ := s.bytes.length

theorem read_of_notMem {mem : List Byte} (h : (0 : Byte) ∉ mem) : (read mem).bytes = mem :=
  List.takeWhile_eq_self_iff.2 fun _ hb => decide_eq_true fun h0 => h (h0 ▸ hb)

/-- Reading keeps exactly the memory without a `NUL` as it is. -/
theorem bytes_read_eq {mem : List Byte} : (read mem).bytes = mem ↔ (0 : Byte) ∉ mem :=
  ⟨fun h => h ▸ (read mem).nul_free, read_of_notMem⟩

/-- Reading stops at the terminating `NUL`, whatever comes after it. -/
theorem read_append_nul {s : List Byte} (h : (0 : Byte) ∉ s) (t : List Byte) :
    (read (s ++ 0 :: t)).bytes = s := by
  have hs : ∀ b ∈ s, decide (b ≠ 0) = true := fun b hb =>
    decide_eq_true (ne_of_mem_of_not_mem hb h)
  change (s ++ 0 :: t).takeWhile (· ≠ 0) = s
  rw [List.takeWhile_append_of_pos hs]
  simp

@[simp] theorem read_bytes (s : CStr) : read s.bytes = s :=
  CStr.ext (read_of_notMem s.nul_free)

@[simp] theorem read_nil : read [] = empty := rfl

@[simp] theorem bytes_empty : empty.bytes = [] := rfl

theorem read_eq_empty {mem : List Byte} : read mem = empty ↔ mem = [] ∨ mem.head? = some 0 := by
  cases mem with
  | nil => simp
  | cons b mem =>
    rw [CStr.ext_iff]
    by_cases hb : b = 0 <;> simp [read, hb]

theorem bytes_injective : Function.Injective bytes := fun _ _ h => CStr.ext h

end CStr

/-- A property of the characters of a literal. -/
theorem forall_mem_of_all {s : List Byte} {p : Byte → Prop} [DecidablePred p]
    (h : (s.all fun b => p b) = true) : ∀ b ∈ s, p b := fun b hb =>
  of_decide_eq_true (List.all_eq_true.1 h b hb)

/-- A property of all bytes. -/
theorem forall_byte {p : Byte → Prop} (h : ∀ n < 256, p (UInt8.ofNat n)) (b : Byte) : p b := by
  have hb := h b.toNat b.toNat_lt
  rwa [UInt8.ofNat_toNat] at hb

/-! ## Substrings -/

/-- The first occurrence of `needle` in `hay`, as the rest of `hay` from there on
    (`NULL` when there is none). -/
def strstr (hay needle : List Byte) : Option (List Byte) :=
  hay.tails.find? needle.isPrefixOf

/-- `strstr` finds exactly the substrings. -/
theorem strstr_isSome {hay needle : List Byte} :
    (strstr hay needle).isSome ↔ needle <:+: hay := by
  rw [strstr, List.find?_isSome, List.infix_iff_prefix_suffix]
  constructor
  · rintro ⟨t, ht, hp⟩
    exact ⟨t, List.isPrefixOf_iff_prefix.1 hp, (List.mem_tails _ _).1 ht⟩
  · rintro ⟨t, hp, ht⟩
    exact ⟨t, (List.mem_tails _ _).2 ht, List.isPrefixOf_iff_prefix.2 hp⟩

/-! ## Separated texts -/

theorem intercalate_cons_cons (c : Byte) (s t : List Byte) (ss : List (List Byte)) :
    [c].intercalate (s :: t :: ss) = s ++ c :: [c].intercalate (t :: ss) := by
  simp [List.intercalate]

/-- What stands behind the first piece. -/
theorem intercalate_cons (c : Byte) (s : List Byte) (ss : List (List Byte)) :
    ∃ t, [c].intercalate (s :: ss) = s ++ t ∧
      (t = [] ∧ ss = [] ∨ t = c :: [c].intercalate ss) := by
  rcases ss with _ | ⟨u, ss⟩
  · exact ⟨[], by rw [List.intercalate_singleton, List.append_nil], .inl ⟨rfl, rfl⟩⟩
  · exact ⟨_, intercalate_cons_cons c s u ss, .inr rfl⟩

/-- Every text is its pieces, put together with separators. -/
theorem exists_pieces (c : Byte) (str : List Byte) :
    ∃ s ss, str = [c].intercalate (s :: ss) ∧ ∀ t ∈ s :: ss, c ∉ t := by
  induction str with
  | nil => exact ⟨[], [], rfl, by simp⟩
  | cons b str ih =>
    obtain ⟨s, ss, hstr, hss⟩ := ih
    by_cases hb : b = c
    · refine ⟨[], s :: ss, by rw [intercalate_cons_cons, ← hstr, hb]; rfl, ?_⟩
      rintro t (_ | ⟨_, ht⟩)
      · exact List.not_mem_nil
      · exact hss t ht
    · refine ⟨b :: s, ss, ?_, ?_⟩
      · rw [hstr]
        rcases ss with _ | ⟨t, ss⟩
        · rw [List.intercalate_singleton, List.intercalate_singleton]
        · rw [intercalate_cons_cons, intercalate_cons_cons]; rfl
      · rintro t (_ | ⟨_, ht⟩)
        · exact List.not_mem_cons_of_ne_of_not_mem (Ne.symm hb) (hss s List.mem_cons_self)
        · exact hss t (List.mem_cons_of_mem s ht)

/-- The pieces of a text are unique. -/
theorem eq_of_intercalate_eq {c : Byte} {s s' : List Byte} {ss ss' : List (List Byte)}
    (h : ∀ t ∈ s :: ss, c ∉ t) (h' : ∀ t ∈ s' :: ss', c ∉ t)
    (heq : [c].intercalate (s :: ss) = [c].intercalate (s' :: ss')) : s = s' ∧ ss = ss' := by
  have hsplit := List.splitOn_intercalate _ h (List.cons_ne_nil s ss)
  rw [heq, List.splitOn_intercalate _ h' (List.cons_ne_nil s' ss')] at hsplit
  exact List.cons.inj hsplit.symm

theorem mem_intercalate_of_mem {b c : Byte} {t : List Byte} {ss : List (List Byte)} (hb : b ∈ t)
    (ht : t ∈ ss) : b ∈ [c].intercalate ss := by
  induction ss with
  | nil => exact absurd ht List.not_mem_nil
  | cons s ss ih =>
    rcases ss with _ | ⟨u, ss⟩
    · rw [List.intercalate_singleton, ← List.mem_singleton.1 ht]
      exact hb
    · rw [intercalate_cons_cons, List.mem_append, List.mem_cons]
      rcases List.mem_cons.1 ht with rfl | ht
      · exact .inl hb
      · exact .inr (.inr (ih ht))

theorem notMem_intercalate {c d : Byte} (hcd : c ≠ d) {ss : List (List Byte)}
    (h : ∀ s ∈ ss, c ∉ s) : c ∉ [d].intercalate ss := by
  induction ss with
  | nil => simp [List.intercalate]
  | cons s ss ih =>
    rcases ss with _ | ⟨t, ss⟩
    · rw [List.intercalate_singleton]; exact h s List.mem_cons_self
    · rw [intercalate_cons_cons, List.mem_append, List.mem_cons, not_or, not_or]
      exact ⟨h s List.mem_cons_self, hcd, ih fun t ht => h t (List.mem_cons_of_mem s ht)⟩

theorem intercalate_concat (c : Byte) {ss : List (List Byte)} (h : ss ≠ []) (t : List Byte) :
    [c].intercalate (ss ++ [t]) = [c].intercalate ss ++ c :: t := by
  induction ss with
  | nil => exact absurd rfl h
  | cons s ss ih =>
    rcases ss with _ | ⟨u, ss⟩
    · rw [List.singleton_append, intercalate_cons_cons, List.intercalate_singleton,
        List.intercalate_singleton]
    · rw [List.cons_append, List.cons_append, intercalate_cons_cons, ← List.cons_append,
        ih (List.cons_ne_nil u ss), intercalate_cons_cons, List.append_assoc]
      rfl

/-! ## Lists -/

theorem exists_of_mem_forall₂ {α β : Type} {R : α → β → Prop} {l : List α} {m : List β}
    (h : List.Forall₂ R l m) {a : α} (ha : a ∈ l) : ∃ b ∈ m, R a b := by
  induction h with
  | nil => exact absurd ha List.not_mem_nil
  | cons hr _ ih =>
    rcases List.mem_cons.1 ha with rfl | ha
    · exact ⟨_, List.mem_cons_self, hr⟩
    · obtain ⟨b, hb, hab⟩ := ih ha
      exact ⟨b, List.mem_cons_of_mem _ hb, hab⟩

theorem exists_forall₂ {α β : Type} {R : α → β → Prop} {l : List α} (h : ∀ a ∈ l, ∃ b, R a b) :
    ∃ m, List.Forall₂ R l m := by
  induction l with
  | nil => exact ⟨[], .nil⟩
  | cons a l ih =>
    obtain ⟨⟨b, hb⟩, h⟩ := List.forall_mem_cons.1 h
    obtain ⟨m, hm⟩ := ih h
    exact ⟨b :: m, .cons hb hm⟩

/-- Some element has the property `Q`, and the ones before it have the property `P`. -/
def Reaches {α : Type} (P Q : α → Prop) (l : List α) : Prop :=
  ∃ l₁ a l₂, l = l₁ ++ a :: l₂ ∧ (∀ b ∈ l₁, P b) ∧ Q a

theorem not_reaches_nil {α : Type} {P Q : α → Prop} : ¬Reaches P Q [] := by
  rintro ⟨l₁, a, l₂, h, -⟩
  exact absurd h (by simp)

theorem reaches_cons {α : Type} {P Q : α → Prop} {a : α} {l : List α} :
    Reaches P Q (a :: l) ↔ Q a ∨ P a ∧ Reaches P Q l := by
  constructor
  · rintro ⟨_ | ⟨b, l₁⟩, c, l₂, heq, hP, hQ⟩
    · obtain ⟨rfl, rfl⟩ := List.cons.inj heq
      exact .inl hQ
    · obtain ⟨rfl, rfl⟩ := List.cons.inj heq
      exact .inr ⟨hP a List.mem_cons_self, l₁, c, l₂, rfl,
        fun b hb => hP b (List.mem_cons_of_mem a hb), hQ⟩
  · rintro (h | ⟨ha, l₁, b, l₂, rfl, hP, hQ⟩)
    · exact ⟨[], a, l, rfl, fun _ h => absurd h List.not_mem_nil, h⟩
    · exact ⟨a :: l₁, b, l₂, rfl, List.forall_mem_cons.2 ⟨ha, hP⟩, hQ⟩

/-! ## Characters -/

/-- `isdigit` in the `"C"` locale. -/
def isdigit (b : Byte) : Bool := 48 ≤ b && b ≤ 57

/-- `isalpha` in the `"C"` locale. -/
def isalpha (b : Byte) : Bool := (65 ≤ b && b ≤ 90) || (97 ≤ b && b ≤ 122)

/-- `isalnum` in the `"C"` locale. -/
def isalnum (b : Byte) : Bool := isalpha b || isdigit b

/-- `isspace` in the `"C"` locale. -/
def isspace (b : Byte) : Bool := b == 32 || (9 ≤ b && b ≤ 13)

/-! ## Numbers -/

/-- The greatest `long`. -/
def longMax : ℤ := 2 ^ 63 - 1

/-- The least `long`. -/
def longMin : ℤ := -2 ^ 63

/-- The number the decimal digits `ds` denote. -/
def digitsValue (ds : List Byte) : ℕ :=
  ds.foldl (fun n d => 10 * n + (d.toNat - 48)) 0

/-- `strtol` in base ten, on 64-bit `long`: leading white space, a sign, digits up
    to the first other character, and saturation. -/
def strtol (s : List Byte) : ℤ :=
  let s := s.dropWhile isspace
  let neg := s.head? = some ('-' : Byte)
  let s := if s.head? = some ('-' : Byte) ∨ s.head? = some ('+' : Byte) then s.tail else s
  let n : ℤ := digitsValue (s.takeWhile isdigit)
  if neg then max (-n) longMin else min n longMax

/-- A digit is neither white space nor a sign. -/
theorem isdigit_ne {c : Byte} (h : isdigit c = true) :
    isspace c = false ∧ c ≠ ('-' : Byte) ∧ c ≠ ('+' : Byte) := by
  simp only [isdigit, Bool.and_eq_true, decide_eq_true_eq, UInt8.le_iff_toNat_le] at h
  have hlow : 48 ≤ c.toNat := h.1
  refine ⟨?_, fun hc => ?_, fun hc => ?_⟩
  · have hspace : c ≠ 32 := fun hc => by
      rw [hc] at hlow
      exact absurd hlow (by decide)
    have hrange : ¬c ≤ 13 := fun hc => by
      rw [UInt8.le_iff_toNat_le] at hc
      have hle : c.toNat ≤ 13 := hc
      omega
    simp [isspace, hspace, hrange]
  · rw [hc] at hlow
    exact absurd hlow (by decide)
  · rw [hc] at hlow
    exact absurd hlow (by decide)

/-- A text of digits neither starts with white space nor with a sign. -/
theorem digits_head {s : List Byte} (hs : s.all isdigit = true) :
    s.dropWhile isspace = s ∧ s.head? ≠ some ('-' : Byte) ∧ s.head? ≠ some ('+' : Byte) := by
  rcases s with _ | ⟨c, s⟩
  · exact ⟨rfl, by simp, by simp⟩
  · rw [List.all_cons, Bool.and_eq_true] at hs
    obtain ⟨hspace, hminus, hplus⟩ := isdigit_ne hs.1
    exact ⟨by rw [List.dropWhile_cons, hspace]; rfl, fun h => hminus (Option.some.inj h),
      fun h => hplus (Option.some.inj h)⟩

/-- The number of a text of digits. -/
theorem strtol_of_digits {s : List Byte} (hs : s.all isdigit = true) :
    strtol s = min (digitsValue s : ℤ) longMax := by
  obtain ⟨hdrop, hminus, hplus⟩ := digits_head hs
  have htake : s.takeWhile isdigit = s := List.takeWhile_eq_self_iff.2 (List.all_eq_true.1 hs)
  rw [strtol, hdrop]
  simp only [hminus, hplus, or_self, if_false, htake]

/-- `atoi`: `strtol`, converted to a 32-bit `int`. -/
def atoi (s : CStr) : ℤ := (strtol s.bytes).bmod (2 ^ 32)

/-- What `printf` writes for `%d`. -/
def decimal (n : ℕ) : List Byte := (Nat.toDigits 10 n).map Char.toUInt8

end CoapBroker
