import CoapBroker.Lib.Buffer

/-!
# Query parameters of the resource directory

`parse_param` looks for a parameter in the value of a `Uri-Query` option, with a pointer and a
remaining length that it counts down (`parseParam`). Here the pointer is an index, reading at an
index outside the data and counting down from zero are errors (`Fault`), and so is a loop that
goes on after as many iterations as there are bytes, and one more.

The data are items put together with `&`. What the function finds is said on the items
(`scanned`): the first one that is the name, or the name and `=`, and what follows the next `=`,
which need not be one of that item. Compared with the value of the item itself (`param`), it is
right exactly when no later item lends its value to a name that comes alone
(`parseParam_faithful_iff`).
-/

namespace CoapBroker.Directory

/-- What the functions of the directory must not do. -/
inductive Fault
  /-- Reading the byte at this index, which is not below the length of the data. -/
  | read (i : ℕ)
  /-- An unsigned subtraction whose result would be negative. -/
  | wrap
  /-- Going on for ever. -/
  | diverges
  /-- Using a string that is `NULL`. -/
  | null
  /-- An access outside a buffer. -/
  | access (a : Access)
  /-- A size larger than that of the buffer. -/
  | size (n : ℕ)
  deriving DecidableEq

/-- A string that is given by where it starts in the data, and its length (`str`). -/
structure Str where
  length : ℕ
  s : Option ℕ
  deriving DecidableEq

/-- The separator of the items. -/
def amp : Byte := '&'

/-- The separator of name and value. -/
def equals : Byte := '='

/-- `memset(result, 0, sizeof(str))`. -/
def Str.zero : Str := ⟨0, none⟩

/-- `*data`. -/
def load (mem : List Byte) (data : ℕ) : Except Fault Byte :=
  match mem[data]? with
  | some b => .ok b
  | none => .error (.read data)

/-- Whether `memcmp(search, data, search_len)` is zero. -/
def sameBytes (mem : List Byte) : List Byte → ℕ → Except Fault Bool
  | [], _ => .ok true
  | c :: search, data => do
    let b ← load mem data
    let same ← sameBytes mem search (data + 1)
    .ok (c == b && same)

/-- `!data_len || *data == '=' || *data == '&'`. -/
def isDelimited (mem : List Byte) (data dataLen : ℕ) : Except Fault Bool :=
  if dataLen = 0 then .ok true
  else do
    let b ← load mem data
    .ok (b == equals || b == amp)

/-- `while (data_len && *data != '=') { ++data; --data_len; }` -/
def seekValue (mem : List Byte) (data : ℕ) : ℕ → Except Fault (ℕ × ℕ)
  | 0 => .ok (data, 0)
  | dataLen + 1 => do
    let b ← load mem data
    if b ≠ equals then seekValue mem (data + 1) dataLen else .ok (data, dataLen + 1)

/-- `while (--data_len && *data != '&') { ++data; result->length++; }`, as the number of
    iterations. -/
def valueLength (mem : List Byte) (data : ℕ) : ℕ → Except Fault ℕ
  | 0 => .error .wrap
  | 1 => .ok 0
  | dataLen + 2 => do
    let b ← load mem data
    if b ≠ amp then (· + 1) <$> valueLength mem (data + 1) (dataLen + 1) else .ok 0

/-- `while (--data_len && *data++ != '&') ;` -/
def skipItem (mem : List Byte) (data : ℕ) : ℕ → Except Fault (ℕ × ℕ)
  | 0 => .error .wrap
  | 1 => .ok (data, 0)
  | dataLen + 2 => do
    let b ← load mem data
    if b ≠ amp then skipItem mem (data + 1) (dataLen + 1) else .ok (data + 1, dataLen + 1)

/-- What is done when the name has been found and `data` is behind it. -/
def takeValue (mem : List Byte) (result : Option Str) (data dataLen : ℕ) :
    Except Fault (Option Str) := do
  let (data, dataLen) ← seekValue mem data dataLen
  match result with
  | none => .ok none
  | some result =>
    if dataLen > 1 then
      -- value begins after '='
      let length ← valueLength mem (data + 1) dataLen
      .ok (some ⟨result.length + length, some (data + 1)⟩)
    else .ok (some result)

/-- The outer loop, for so many iterations. -/
def parseLoop (mem search : List Byte) (result : Option Str) :
    ℕ → ℕ → ℕ → Except Fault (Bool × Option Str)
  | 0, _, _ => .error .diverges
  | fuel + 1, data, dataLen =>
    if search.length ≤ dataLen then do
      if ← sameBytes mem search data then
        let data := data + search.length
        let dataLen := dataLen - search.length
        if ← isDelimited mem data dataLen then
          let result ← takeValue mem result data dataLen
          .ok (true, result)
        else
          let (data, dataLen) ← skipItem mem data dataLen
          parseLoop mem search result fuel data dataLen
      else
        let (data, dataLen) ← skipItem mem data dataLen
        parseLoop mem search result fuel data dataLen
    else .ok (false, result)

/-- `parse_param`: whether it returns 1, and `*result`, unless it is `NULL`. -/
def parseParam (search mem : List Byte) (result : Option Str) :
    Except Fault (Bool × Option Str) :=
  let result := result.map fun _ => Str.zero
  if search.length = 0 then .ok (false, result)
  else parseLoop mem search result (mem.length + 1) 0 mem.length

/-! ## Items -/

/-- An item is the parameter `search` when it is the name alone, or begins with the name
    and `=`. -/
def names (search item : List Byte) : Bool :=
  item == search || (search ++ [equals]).isPrefixOf item

/-- The text after the first `=` of an item. -/
def value (item : List Byte) : List Byte := (item.dropWhile fun b : Byte => b ≠ equals).drop 1

/-- The value of the first item that is the parameter `search`. -/
def param (search : List Byte) (items : List (List Byte)) : Option (List Byte) :=
  (items.find? (names search)).map value

/-- The value of the first item that has one. -/
def nextValue (items : List (List Byte)) : List Byte :=
  ((items.find? fun item => item.any fun b : Byte => b = equals).map value).getD []

/-- What the scanner takes for the value: after a name that stands alone, that of a later
    item. -/
def scanned (search : List Byte) : List (List Byte) → Option (List Byte)
  | [] => none
  | item :: items =>
    if names search item then some (if item = search then nextValue items else value item)
    else scanned search items

/-- A string in the data is the text `v`. -/
def Str.Denotes (r : Str) (mem v : List Byte) : Prop :=
  r.length = v.length ∧ (v ≠ [] → ∃ data, r.s = some data ∧ (mem.drop data).take r.length = v)

/-! ## The loops -/

variable {mem search rest u v : List Byte} {data : ℕ} {result : Option Str}

theorem load_of_drop {b : Byte} (h : mem.drop data = b :: rest) : load mem data = .ok b := by
  have hb : mem[data]? = some b := by rw [← List.head?_drop, h, List.head?_cons]
  rw [load, hb]

theorem drop_succ_of_drop {b : Byte} (h : mem.drop data = b :: rest) :
    mem.drop (data + 1) = rest := by
  rw [← List.drop_drop, h, List.drop_one, List.tail_cons]

theorem sameBytes_eq (h : mem.drop data = rest) (hlen : search.length ≤ rest.length) :
    sameBytes mem search data = .ok (search.isPrefixOf rest) := by
  induction search generalizing data rest with
  | nil => rfl
  | cons c search ih =>
    cases rest with
    | nil => exact absurd hlen (by simp)
    | cons b rest =>
      have hrec := ih (drop_succ_of_drop h) (Nat.le_of_succ_le_succ hlen)
      simp only [sameBytes, load_of_drop h, hrec, bind, Except.bind]
      rfl

theorem isDelimited_eq (h : mem.drop data = rest) :
    isDelimited mem data rest.length =
      .ok (rest.head?.all fun b : Byte => b == equals || b == amp) := by
  cases rest with
  | nil => rfl
  | cons b rest =>
    rw [isDelimited, if_neg (by simp), load_of_drop h]
    rfl

theorem seekValue_eq (h : mem.drop data = rest) :
    ∃ data', seekValue mem data rest.length =
        .ok (data', (rest.dropWhile fun b : Byte => b ≠ equals).length) ∧
      mem.drop data' = rest.dropWhile fun b : Byte => b ≠ equals := by
  induction rest generalizing data with
  | nil => exact ⟨data, rfl, h⟩
  | cons b rest ih =>
    simp only [List.length_cons, seekValue, load_of_drop h, bind, Except.bind]
    by_cases hb : b = equals
    · rw [List.dropWhile_cons_of_neg (by simp [hb]), if_neg (not_not.2 hb)]
      exact ⟨data, rfl, h⟩
    · rw [List.dropWhile_cons_of_pos (by simp [hb]), if_pos hb]
      exact ih (drop_succ_of_drop h)

theorem valueLength_eq (h : mem.drop data = v) :
    valueLength mem data (v.length + 1) = .ok (v.takeWhile fun b : Byte => b ≠ amp).length := by
  induction v generalizing data with
  | nil => rfl
  | cons b v ih =>
    simp only [List.length_cons, valueLength, load_of_drop h, bind, Except.bind]
    by_cases hb : b = amp
    · rw [List.takeWhile_cons_of_neg (by simp [hb]), if_neg (not_not.2 hb)]
      rfl
    · rw [List.takeWhile_cons_of_pos (by simp [hb]), if_pos hb, ih (drop_succ_of_drop h)]
      rfl

/-- At the end of the data, the pointer stays on the last byte. -/
theorem skipItem_eq (h : mem.drop data = rest) (hrest : rest ≠ []) :
    ∃ data', skipItem mem data rest.length =
        .ok (data', (rest.dropWhile fun b : Byte => b ≠ amp).tail.length) ∧
      ((rest.dropWhile fun b : Byte => b ≠ amp).tail ≠ [] →
        mem.drop data' = (rest.dropWhile fun b : Byte => b ≠ amp).tail) := by
  induction rest generalizing data with
  | nil => exact absurd rfl hrest
  | cons b rest ih =>
    rcases rest with _ | ⟨c, rest⟩
    · have hnil : ([b].dropWhile fun b : Byte => b ≠ amp).tail = [] := by
        by_cases hb : b = amp <;> simp [hb]
      rw [hnil]
      exact ⟨data, rfl, fun h => absurd rfl h⟩
    · simp only [List.length_cons, skipItem, load_of_drop h, bind, Except.bind]
      by_cases hb : b = amp
      · rw [List.dropWhile_cons_of_neg (by simp [hb]), if_neg (not_not.2 hb)]
        exact ⟨data + 1, rfl, fun _ => drop_succ_of_drop h⟩
      · rw [List.dropWhile_cons_of_pos (by simp [hb]), if_pos hb]
        exact ih (drop_succ_of_drop h) (List.cons_ne_nil c rest)

/-- What the scanner takes for a value when `rest` stands behind the name. -/
def valueAfter (rest : List Byte) : List Byte :=
  (value rest).takeWhile fun b : Byte => b ≠ amp

theorem takeValue_eq (h : mem.drop data = rest) (hresult : ∀ r ∈ result, r = Str.zero) :
    ∃ out, takeValue mem result data rest.length = .ok out ∧ out.isSome = result.isSome ∧
      ∀ r ∈ out, r.Denotes mem (valueAfter rest) := by
  -- the search stops at the equals sign, or at the end
  obtain ⟨data', hseek, hdrop⟩ := seekValue_eq h
  simp only [takeValue, hseek, bind, Except.bind]
  rcases result with _ | result
  · exact ⟨none, rfl, rfl, by simp⟩
  obtain rfl := hresult result rfl
  generalize hvalue : rest.dropWhile (fun b : Byte => b ≠ equals) = found at hdrop ⊢
  simp only
  rcases found with _ | ⟨b, found⟩
  · refine ⟨_, if_neg (by simp), rfl, ?_⟩
    rintro _ ⟨⟩
    rw [valueAfter, value, hvalue]
    exact ⟨rfl, fun h => absurd rfl h⟩
  have hdrop' := drop_succ_of_drop hdrop
  have hafter : valueAfter rest = found.takeWhile fun b : Byte => b ≠ amp := by
    rw [valueAfter, value, hvalue, List.drop_one, List.tail_cons]
  by_cases hone : (b :: found).length > 1
  · rw [if_pos hone, List.length_cons, valueLength_eq hdrop']
    refine ⟨_, rfl, rfl, ?_⟩
    rintro _ ⟨⟩
    refine ⟨by rw [hafter]; exact Nat.zero_add _, fun _ => ⟨_, rfl, ?_⟩⟩
    rw [hdrop', hafter]
    change found.take (0 + _) = _
    rw [Nat.zero_add]
    exact (List.prefix_iff_eq_take.1 (List.takeWhile_prefix _)).symm
  · have hnil : found = [] := by
      rw [List.length_cons] at hone
      exact List.length_eq_zero_iff.1 (by omega)
    refine ⟨_, if_neg hone, rfl, ?_⟩
    rintro _ ⟨⟩
    rw [hafter, hnil]
    exact ⟨rfl, fun h => absurd rfl h⟩

/-! ## What the scanner finds -/

variable {item : List Byte} {items : List (List Byte)}

theorem names_append : names search (search ++ u) ↔ u = [] ∨ u.head? = some equals := by
  rw [names, Bool.or_eq_true, beq_iff_eq, List.isPrefixOf_iff_prefix, List.append_right_eq_self,
    List.prefix_append_right_inj]
  refine or_congr_right ?_
  cases u with
  | nil => simp
  | cons b u => simp [eq_comm]

theorem prefix_of_names (h : names search item) : search <+: item := by
  rw [names, Bool.or_eq_true, beq_iff_eq, List.isPrefixOf_iff_prefix] at h
  rcases h with rfl | h
  · exact List.prefix_rfl
  · exact (List.prefix_append search _).trans h

theorem scanned_eq_none (h : ∀ item ∈ items, ¬ names search item) :
    scanned search items = none := by
  induction items with
  | nil => rfl
  | cons item items ih =>
    rw [scanned, if_neg (h item List.mem_cons_self)]
    exact ih fun t ht => h t (List.mem_cons_of_mem item ht)

/-- An item is a part of the data. -/
theorem length_le_of_mem (h : item ∈ items) : item.length ≤ ([amp].intercalate items).length := by
  induction items with
  | nil => exact absurd h List.not_mem_nil
  | cons t items ih =>
    obtain ⟨tail, heq, htail⟩ := intercalate_cons amp t items
    rw [heq, List.length_append]
    rcases List.mem_cons.1 h with rfl | h
    · exact Nat.le_add_right _ _
    · rcases htail with ⟨-, rfl⟩ | rfl
      · exact absurd h List.not_mem_nil
      · have := ih h
        rw [List.length_cons]
        omega

theorem value_append (hu : equals ∉ u) (v : List Byte) : value (u ++ equals :: v) = v := by
  have hall : ∀ b ∈ u, decide (b ≠ equals) = true := fun b hb =>
    decide_eq_true (ne_of_mem_of_not_mem hb hu)
  rw [value, List.dropWhile_append_of_pos hall, List.dropWhile_cons_of_neg (by simp), List.drop_one,
    List.tail_cons]

theorem value_append_of_notMem (hu : equals ∉ u) : value (u ++ v) = value v := by
  have hall : ∀ b ∈ u, decide (b ≠ equals) = true := fun b hb =>
    decide_eq_true (ne_of_mem_of_not_mem hb hu)
  rw [value, value, List.dropWhile_append_of_pos hall]

theorem value_of_notMem (hu : equals ∉ u) : value u = [] := by
  have h := @value_append_of_notMem u [] hu
  rwa [List.append_nil] at h

/-- The rest of an item ends with it. -/
theorem takeWhile_item (hu : amp ∉ u) (ht : v = [] ∨ v.head? = some amp) :
    (u ++ v).takeWhile (fun b : Byte => b ≠ amp) = u := by
  have hall : ∀ b ∈ u, decide (b ≠ amp) = true := fun b hb =>
    decide_eq_true (ne_of_mem_of_not_mem hb hu)
  rw [List.takeWhile_append_of_pos hall]
  rcases v with _ | ⟨b, v⟩
  · exact List.append_nil u
  · obtain rfl : b = amp := by simpa using ht
    rw [List.takeWhile_cons_of_neg (by simp), List.append_nil]

/-- Behind a name that stands alone, the scanner goes on to the first item with a value. -/
theorem valueAfter_intercalate (hitems : ∀ t ∈ items, amp ∉ t) :
    valueAfter ([amp].intercalate items) = nextValue items := by
  induction items with
  | nil => rfl
  | cons item items ih =>
    obtain ⟨hitem, hitems⟩ := List.forall_mem_cons.1 hitems
    obtain ⟨t, htext, ht⟩ := intercalate_cons amp item items
    rw [htext, valueAfter]
    by_cases hvalue : equals ∈ item
    · obtain ⟨name, v, rfl, hname⟩ := List.eq_append_cons_of_mem hvalue
      have hv : amp ∉ v := fun h => hitem (List.mem_append_right _ (List.mem_cons_of_mem _ h))
      have ht : t = [] ∨ t.head? = some amp := ht.imp And.left (congrArg List.head?)
      rw [List.append_assoc, List.cons_append, value_append hname, takeWhile_item hv ht, nextValue,
        List.find?_cons_of_pos (by simp)]
      exact (value_append hname v).symm
    · have hnext : nextValue (item :: items) = nextValue items := by
        rw [nextValue, List.find?_cons_of_neg, nextValue]
        rw [List.any_eq_true]
        rintro ⟨b, hb, hequals⟩
        exact hvalue (of_decide_eq_true hequals ▸ hb)
      rw [value_append_of_notMem hvalue, hnext, ← ih hitems]
      rcases ht with ⟨rfl, rfl⟩ | rfl
      · rfl
      · rfl

/-- The name stands at the beginning of the data when it does so in the first item. -/
theorem isPrefixOf_item (hamp : amp ∉ search) (hv : v = [] ∨ v.head? = some amp) :
    search.isPrefixOf (item ++ v) ↔ search <+: item := by
  rw [List.isPrefixOf_iff_prefix]
  refine ⟨fun h => ?_, fun h => h.trans (List.prefix_append item v)⟩
  rcases List.prefix_or_prefix_of_prefix h (List.prefix_append item v) with hle | ⟨w, rfl⟩
  · exact hle
  · rw [List.prefix_append_right_inj] at h
    rcases w with _ | ⟨b, w⟩
    · rw [List.append_nil]
    · obtain ⟨x, rfl⟩ := h
      obtain rfl : b = amp := by simpa using hv
      exact absurd (List.mem_append_right item List.mem_cons_self) hamp

/-- What is left after skipping an item. -/
theorem tail_dropWhile_item (hu : amp ∉ u)
    (ht : v = [] ∧ items = [] ∨ v = amp :: [amp].intercalate items) :
    ((u ++ v).dropWhile fun b : Byte => b ≠ amp).tail = [amp].intercalate items := by
  have hall : ∀ b ∈ u, decide (b ≠ amp) = true := fun b hb =>
    decide_eq_true (ne_of_mem_of_not_mem hb hu)
  rw [List.dropWhile_append_of_pos hall]
  rcases ht with ⟨rfl, rfl⟩ | rfl
  · rfl
  · rw [List.dropWhile_cons_of_neg (by simp), List.tail_cons]

/-- The byte behind the name ends it when the item does, or when it is `=`. -/
theorem delimited_iff (hu : amp ∉ u) (hv : v = [] ∨ v.head? = some amp) :
    ((u ++ v).head?.all fun b : Byte => b == equals || b == amp) = true ↔
      u = [] ∨ u.head? = some equals := by
  rcases u with _ | ⟨b, u⟩
  · rcases hv with rfl | hv
    · simp
    · simp [hv]
  · have hb : b ≠ amp := fun h => hu (h ▸ List.mem_cons_self)
    simp [hb]

/-- What is taken for the value of the item `search ++ u`. -/
theorem valueAfter_item (heq : equals ∉ search) (hitems : ∀ t ∈ items, amp ∉ t) (hu : amp ∉ u)
    (hv : v = [] ∧ items = [] ∨ v = amp :: [amp].intercalate items)
    (hends : u = [] ∨ u.head? = some equals) :
    valueAfter (u ++ v) =
      if search ++ u = search then nextValue items else value (search ++ u) := by
  rcases u with _ | ⟨b, u⟩
  · rw [if_pos (List.append_nil search), List.nil_append, ← valueAfter_intercalate hitems]
    rcases hv with ⟨rfl, rfl⟩ | rfl <;> rfl
  · obtain rfl : b = equals := by simpa using hends
    have hu' : amp ∉ u := fun h => hu (List.mem_cons_of_mem _ h)
    have hne : search ++ equals :: u ≠ search := fun h => by simp at h
    rw [if_neg hne, value_append heq]
    exact takeWhile_item hu' (hv.imp And.left (congrArg List.head?))

/-- In the items, the scanner finds what `scanned` says. -/
theorem parseLoop_scanned (hne : search ≠ []) (heq : equals ∉ search) (hamp : amp ∉ search)
    (hresult : ∀ r ∈ result, r = Str.zero) (hitems : ∀ t ∈ items, amp ∉ t) (fuel data : ℕ)
    (hfuel : ([amp].intercalate items).length < fuel)
    (h : [amp].intercalate items ≠ [] → mem.drop data = [amp].intercalate items) :
    ∃ out, parseLoop mem search result fuel data ([amp].intercalate items).length =
        .ok ((scanned search items).isSome, out) ∧ out.isSome = result.isSome ∧
      ∀ r ∈ out, r.Denotes mem ((scanned search items).getD []) := by
  have hzero : ∀ r ∈ result, r.Denotes mem [] := fun r hr => by
    rw [hresult r hr]
    exact ⟨rfl, fun h => absurd rfl h⟩
  induction items generalizing fuel data with
  | nil =>
    obtain ⟨fuel, rfl⟩ := Nat.exists_eq_succ_of_ne_zero (Nat.ne_of_gt hfuel)
    exact ⟨result, if_neg (by simpa using hne), rfl, hzero⟩
  | cons item items ih =>
    obtain ⟨fuel, rfl⟩ :=
      Nat.exists_eq_succ_of_ne_zero (Nat.ne_of_gt (Nat.lt_of_le_of_lt (Nat.zero_le _) hfuel))
    by_cases hlen : search.length ≤ ([amp].intercalate (item :: items)).length
    swap
    · -- what is left is shorter than the name
      have hnone : scanned search (item :: items) = none := scanned_eq_none fun t ht hnames =>
        hlen ((prefix_of_names hnames).length_le.trans (length_le_of_mem ht))
      rw [hnone]
      exact ⟨result, if_neg hlen, rfl, hzero⟩
    obtain ⟨hitem, htail⟩ := List.forall_mem_cons.1 hitems
    obtain ⟨t, htext, ht⟩ := intercalate_cons amp item items
    have ht' : t = [] ∨ t.head? = some amp := ht.imp And.left (congrArg List.head?)
    rw [htext] at hlen hfuel h ⊢
    have hrest : item ++ t ≠ [] := fun hnil => by
      rw [hnil, List.length_nil, Nat.le_zero, List.length_eq_zero_iff] at hlen
      exact hne hlen
    have hdrop := h hrest
    -- the loop goes on with the rest of the items, from any place in this one
    have hskip : ∀ u data, amp ∉ u → u ++ t ≠ [] → (u ++ t).length ≤ (item ++ t).length →
        mem.drop data = u ++ t →
        ∃ out, (skipItem mem data (u ++ t).length >>= fun (data, dataLen) =>
            parseLoop mem search result fuel data dataLen) =
          .ok ((scanned search items).isSome, out) ∧ out.isSome = result.isSome ∧
          ∀ r ∈ out, r.Denotes mem ((scanned search items).getD []) := by
      intro u data hu hne' hle hdrop
      obtain ⟨data', hskip, hdrop'⟩ := skipItem_eq hdrop hne'
      rw [tail_dropWhile_item hu ht] at hskip hdrop'
      rw [hskip]
      have hless : ([amp].intercalate items).length < (u ++ t).length := by
        rcases ht with ⟨rfl, rfl⟩ | rfl
        · exact List.length_pos_of_ne_nil hne'
        · rw [List.length_append, List.length_cons]
          omega
      exact ih htail fuel data' (by omega) hdrop'
    rw [parseLoop, if_pos hlen, sameBytes_eq hdrop hlen]
    by_cases hprefix : search <+: item
    swap
    · have hfalse : search.isPrefixOf (item ++ t) = false :=
        eq_false_of_ne_true fun h => hprefix ((isPrefixOf_item hamp ht').1 h)
      rw [hfalse, scanned, if_neg fun h => hprefix (prefix_of_names h)]
      exact hskip item data hitem hrest le_rfl hdrop
    obtain ⟨u, rfl⟩ := hprefix
    have hu : amp ∉ u := fun h => hitem (List.mem_append_right _ h)
    have hdrop' : mem.drop (data + search.length) = u ++ t := by
      rw [← List.drop_drop, hdrop, List.append_assoc, List.drop_left]
    have hlen' : (search ++ u ++ t).length - search.length = (u ++ t).length := by
      rw [List.append_assoc, List.length_append, Nat.add_sub_cancel_left]
    rw [(isPrefixOf_item hamp ht').2 (List.prefix_append search u), scanned]
    change ∃ out, (isDelimited mem (data + search.length) _ >>= _) = _ ∧ _
    rw [hlen', isDelimited_eq hdrop']
    by_cases hnames : names search (search ++ u)
    · -- the name ends here
      have hends := names_append.1 hnames
      have hafter := valueAfter_item heq htail hu ht hends
      obtain ⟨out, htake, hsome, hdenotes⟩ := takeValue_eq hdrop' hresult
      rw [(delimited_iff hu ht').2 hends, if_pos hnames]
      refine ⟨out, ?_, hsome, hafter ▸ hdenotes⟩
      change (takeValue mem result _ _ >>= _) = _
      rw [htake]
      rfl
    · -- the name is a proper beginning of that of the item
      have hends : ¬ (u = [] ∨ u.head? = some equals) := fun h => hnames (names_append.2 h)
      have hne' : u ++ t ≠ [] := fun h => hends (.inl (List.append_eq_nil_iff.1 h).1)
      rw [eq_false_of_ne_true fun h => hends ((delimited_iff hu ht').1 h), if_neg hnames]
      refine hskip u _ hu hne' ?_ hdrop'
      rw [List.append_assoc, @List.length_append _ search]
      exact Nat.le_add_left _ _

/-! ## The value of the parameter -/

/-- A text that is in the data is the only one. -/
theorem Str.Denotes.unique {r : Str} (hu : r.Denotes mem u) (hv : r.Denotes mem v) : u = v := by
  have hlen : u.length = v.length := hu.1.symm.trans hv.1
  by_cases hnil : u = []
  · rw [hnil, eq_comm, ← List.length_eq_zero_iff, ← hlen, hnil, List.length_nil]
  · have hnil' : v ≠ [] := fun h =>
      hnil (List.length_eq_zero_iff.1 (by rw [hlen, h, List.length_nil]))
    obtain ⟨data, hs, rfl⟩ := hu.2 hnil
    obtain ⟨data', hs', rfl⟩ := hv.2 hnil'
    rw [Option.some.inj (hs.symm.trans hs')]

/-- When the parameter is a name alone, no value follows: the first later item with a `=` has
    nothing behind it. -/
def OwnValue (search : List Byte) (items : List (List Byte)) : Prop :=
  ∀ later, (items.dropWhile fun t => !names search t) = search :: later →
    ∀ item ∈ later.find? fun t => t.any fun b : Byte => b = equals, value item = []

theorem nextValue_eq_nil :
    nextValue items = [] ↔
      ∀ item ∈ items.find? fun t => t.any fun b : Byte => b = equals, value item = [] := by
  rw [nextValue]
  cases items.find? fun t => t.any fun b : Byte => b = equals <;> simp

theorem scanned_isSome : (scanned search items).isSome = (param search items).isSome := by
  rw [param, Option.isSome_map]
  induction items with
  | nil => rfl
  | cons item items ih =>
    rw [scanned]
    by_cases h : names search item
    · rw [if_pos h, List.find?_cons_of_pos h]
      rfl
    · rw [if_neg h, List.find?_cons_of_neg h, ih]

/-- The scanner takes the right value exactly when it stays in the item. -/
theorem scanned_eq_iff (heq : equals ∉ search) :
    (scanned search items).getD [] = (param search items).getD [] ↔ OwnValue search items := by
  induction items with
  | nil => exact iff_of_true rfl fun _ h => absurd h (by simp)
  | cons item items ih =>
    by_cases h : names search item
    · rw [scanned, if_pos h, param, List.find?_cons_of_pos h, OwnValue,
        List.dropWhile_cons_of_neg (by simp [h])]
      by_cases halone : item = search
      · rw [halone, if_pos rfl]
        change nextValue items = value search ↔ _
        rw [value_of_notMem heq, nextValue_eq_nil]
        exact ⟨fun hnext later hlater => (List.cons.inj hlater).2 ▸ hnext,
          fun hown => hown items rfl⟩
      · rw [if_neg halone]
        exact iff_of_true rfl fun _ hlater => absurd (List.cons.inj hlater).1 halone
    · rw [scanned, if_neg h, param, List.find?_cons_of_neg h, OwnValue,
        List.dropWhile_cons_of_pos (by simp [h])]
      exact ih

/-- What `parse_param` does with any data. -/
theorem parseParam_scanned (hne : search ≠ []) (heq : equals ∉ search) (hamp : amp ∉ search)
    (mem : List Byte) (result : Option Str) :
    ∃ out, parseParam search mem result = .ok ((scanned search (mem.splitOn amp)).isSome, out) ∧
      out.isSome = result.isSome ∧
      ∀ r ∈ out, r.Denotes mem ((scanned search (mem.splitOn amp)).getD []) := by
  obtain ⟨item, items, hmem, hitems⟩ := exists_pieces amp mem
  have hsplit : mem.splitOn amp = item :: items := by
    rw [hmem]
    exact List.splitOn_intercalate _ hitems (List.cons_ne_nil item items)
  have hzero : ∀ r ∈ result.map fun _ => Str.zero, r = Str.zero := by
    cases result <;> simp [eq_comm]
  obtain ⟨out, hparse, hsome, hdenotes⟩ := parseLoop_scanned hne heq hamp hzero hitems
    (mem.length + 1) 0 (by rw [← hmem]; exact Nat.lt_succ_self _) fun _ => hmem
  rw [← hmem] at hparse
  rw [hsplit, parseParam, if_neg (mt List.length_eq_zero_iff.1 hne)]
  exact ⟨out, hparse, by rw [hsome, Option.isSome_map], hdenotes⟩

/-- The call returns 1 when there is an item for the parameter, and its result is the value of
    the first one. -/
def Faithful (search mem : List Byte) : Prop :=
  ∀ result : Option Str, ∃ out,
    parseParam search mem result = .ok ((param search (mem.splitOn amp)).isSome, out) ∧
      out.isSome = result.isSome ∧
      ∀ r ∈ out, r.Denotes mem ((param search (mem.splitOn amp)).getD [])

/-- `parse_param` finds the parameter and its own value unless this is a name alone and a later
    item has a value. -/
theorem parseParam_faithful_iff (hne : search ≠ []) (heq : equals ∉ search) (hamp : amp ∉ search) :
    Faithful search mem ↔ OwnValue search (mem.splitOn amp) := by
  rw [← scanned_eq_iff heq]
  constructor
  · intro hfaithful
    obtain ⟨out, hparse, hsome, hdenotes⟩ := parseParam_scanned hne heq hamp mem (some .zero)
    obtain ⟨out', hparse', -, hdenotes'⟩ := hfaithful (some .zero)
    obtain rfl : out = out' := (Prod.mk.inj (Except.ok.inj (hparse.symm.trans hparse'))).2
    obtain ⟨r, hr⟩ := Option.isSome_iff_exists.1 hsome
    exact (hdenotes r hr).unique (hdenotes' r hr)
  · intro hvalue result
    rw [← scanned_isSome, ← hvalue]
    exact parseParam_scanned hne heq hamp mem result

/-- In the query `h&ins=x`, the instance is taken for the node's name. -/
theorem parseParam_takes_later :
    parseParam (ascii "h") (ascii "h&ins=x") (some .zero) = .ok (true, some ⟨1, some 6⟩) ∧
      ¬ Faithful (ascii "h") (ascii "h&ins=x") := by
  have hparse : parseParam (ascii "h") (ascii "h&ins=x") (some .zero) =
      .ok (true, some ⟨1, some 6⟩) := by decide
  have hparam : param (ascii "h") ((ascii "h&ins=x").splitOn amp) = some [] := by decide
  refine ⟨hparse, fun hfaithful => ?_⟩
  obtain ⟨out, hparse', -, hdenotes⟩ := hfaithful (some .zero)
  obtain rfl : some ⟨1, some 6⟩ = out := (Prod.mk.inj (Except.ok.inj (hparse.symm.trans hparse'))).2
  have hlen := (hdenotes _ rfl).1
  rw [hparam] at hlen
  exact absurd hlen (by decide)

theorem parseParam_faithful_pair :
    (OwnValue (ascii "h") ((ascii "h=a&ins=x").splitOn amp)) ∧
      Faithful (ascii "h") (ascii "h=a&ins=x") := by
  have hown : OwnValue (ascii "h") ((ascii "h=a&ins=x").splitOn amp) := fun later hlater => by
    have hsplit : (ascii "h=a&ins=x").splitOn amp = [ascii "h=a", ascii "ins=x"] := by decide
    rw [hsplit] at hlater
    exact absurd (List.cons.inj hlater).1 (by decide)
  exact ⟨hown, (parseParam_faithful_iff (by decide) (by decide) (by decide)).2 hown⟩

end CoapBroker.Directory
