import CoapBroker.Lib.Buffer
import CoapBroker.Parser.Acceptance

/-!
# The accesses of the link-format parser

The functions of the parser once more, on buffers whose accesses are checked, with the index
arithmetic of the source. Buffers are allocated in the sizes that have been computed before, and
the first access that is out of bounds is an error. Of the results, the status is kept.

They come to the functions on byte lists, but for two elements. The length of an element is
checked before its last bytes are read when it is an attribute, not when it is the path: of `<`
alone, the byte before it is read (`calPathSize_text`). When the value of an attribute is a lone
double quote, nothing is copied, and the byte before the copy is written (`copyValue_text`). But
for these, the parser follows the grammar (`parseLinkFormat_text`), as it does on byte lists
(`parseLinkFormat_iff_linkText`), and its accesses are in bounds exactly for the payloads in which
it comes to neither (`accesses_in_bounds_iff`).
-/

namespace CoapBroker.Checked

open Buf

/-! ## Segments -/

/-- The loop of `optionValidation`, at the last `=` it has found, for at most so many rounds. -/
def countEq (source : Buf) : ℕ → Option ℤ → Except Access ℕ
  | _, none => .ok 0
  | 0, some pch => .error (.read pch)
  | n + 1, some pch => do
    let pch ← source.strchr (pch + 1) '='
    let counter ← countEq source n pch
    .ok (counter + 1)

/-- `optionValidation`. -/
def optionValidation (source : Buf) : Except Access ℕ := do
  let pch ← source.strchr 0 '='
  let counter ← countEq source source.length pch
  let length ← source.strlen 0
  if length < 3 then .ok 0
  else
    let first ← source.load 0
    if first = ('=' : Byte) then .ok 0
    else
      let last ← source.load (length - 1)
      if last = ('=' : Byte) then .ok 0 else .ok counter

/-- `calOptionSize`. -/
def calOptionSize (source : Buf) : Except Access (Option (ℕ × ℕ)) := do
  let status ← optionValidation source
  if status = 1 then
    let type ← source.strcspn 0 '='
    match ← source.strchr 0 '=' with
    | some pch => do
      let data ← source.strlen (pch + 1)
      .ok (some (type, data))
    | none => .error (.read 0)
  else .ok none

/-- Copying the value of an attribute behind the `=`, without its double quotes. -/
def copyValue (source data : Buf) (pch : ℤ) : Except Access Buf := do
  let first ← source.load (pch + 1)
  let data ←
    if first = ('"' : Byte) then data.strcpy 0 source (pch + 2)
    else data.strcpy 0 source (pch + 1)
  let length ← source.strlen (pch + 1)
  let last ← source.load (pch + length)
  if last = ('"' : Byte) then
    let dataLength ← data.strlen 0
    data.store (dataLength - 1) 0
  else .ok data

/-- `parseOption`, from the position of the `=` on. -/
def parseOptionAt (source type data : Buf) (counter : ℕ) (pch : ℤ) :
    Except Access (Buf × Buf × Bool) := do
  let type ← type.strncpy 0 source 0 counter
  let type ← type.store counter 0
  let typeLength ← type.strlen 0
  let typeValid ← type.allFrom nameChar 0 typeLength
  if ¬typeValid then .ok (type, data, false)
  else
    let data ← copyValue source data pch
    let dataLength ← data.strlen 0
    let dataValid ← data.allFrom nameChar 0 dataLength
    .ok (type, data, dataValid)

/-- `parseOption`, with the buffers for the name and the value. -/
def parseOption (source type data : Buf) : Except Access (Buf × Buf × Bool) := do
  let status ← optionValidation source
  if status = 1 then
    let counter ← source.strcspn 0 '='
    match ← source.strchr 0 '=' with
    | some pch => parseOptionAt source type data counter pch
    | none => .ok (type, data, false)
  else .ok (type, data, false)

/-- `calPathSize`. -/
def calPathSize (source : Buf) : Except Access ℕ := do
  let first ← source.load 0
  if first = ('<' : Byte) then
    let second ← source.load 1
    if second ≠ ('/' : Byte) then
      let length ← source.strlen 0
      let secondLast ← source.load (length - 2)
      if secondLast ≠ ('/' : Byte) then
        let last ← source.load (length - 1)
        if last = ('>' : Byte) then .ok (length - 2) else .ok 0
      else .ok 0
    else .ok 0
  else .ok 0

/-- `parsePath`, with the buffer for the path. -/
def parsePath (source path : Buf) : Except Access (Buf × Bool) := do
  let size ← calPathSize source
  if size ≠ 0 then
    let length ← source.strlen 0
    let pathSize := length - 2
    let path ← path.strncpy 0 source 1 pathSize
    let path ← path.store pathSize 0
    let valid ← path.allFrom pathChar 0 pathSize
    .ok (path, valid)
  else .ok (path, false)

/-! ## The parser -/

/-- `optionRegister`: whether the segment gives an attribute. -/
def optionRegister (tempStr : Buf) : Except Access Bool := do
  match ← calOptionSize tempStr with
  | some (typeSize, dataSize) =>
    if 0 < typeSize ∧ 0 < dataSize then
      let (type, data, status) ←
        parseOption tempStr (malloc (typeSize + 1)) (malloc (dataSize + 1))
      if status then
        let _ ← type.strlen 0
        let _ ← data.strlen 0
        .ok true
      else .ok false
    else .ok false
  | none => .ok false

/-- `pathRegister`: whether the segment gives a path. -/
def pathRegister (tempStr : Buf) : Except Access Bool := do
  let size ← calPathSize tempStr
  if 0 < size then
    let size ← calPathSize tempStr
    let (_, status) ← parsePath tempStr (malloc (size + 1))
    .ok status
  else .ok false

/-- The copy of a segment: `size` bytes are allocated, and `n` copied from the string. -/
def copySegment (size : ℤ) (str : Buf) (start n : ℤ) : Except Access Buf := do
  let tempStr ← (malloc size.toNat).strncpy 0 str start n.toNat
  tempStr.store n 0

/-- The element between the last semicolon the loop has been at and the current one. The first
    element, which has no semicolon before it, is the path. -/
def element (str : Buf) (lastCounter counter : ℤ) : Except Access Bool := do
  let size := counter - lastCounter
  let first ← str.load lastCounter
  if first ≠ (';' : Byte) then
    let tempStr ← copySegment (size + 1) str lastCounter size
    pathRegister tempStr
  else
    let tempStr ← copySegment size str (lastCounter + 1) (size - 1)
    optionRegister tempStr

/-- The element behind the last semicolon. -/
def lastElement (str : Buf) (counter : ℤ) : Except Access Bool := do
  let size ← str.strlen (counter + 1)
  let tempStr ← copySegment (size + 1) str (counter + 1) size
  optionRegister tempStr

/-- The loop of the parser, at the last semicolon it has been at and the current one, for at most
    so many rounds. -/
def parseLoop (str : Buf) : ℕ → ℤ → Option ℤ → Bool → Except Access Bool
  | _, _, none, masterStatus => .ok masterStatus
  | 0, _, some pch, _ => .error (.read pch)
  | rounds + 1, lastCounter, some counter, _ => do
    let status ← element str lastCounter counter
    if ¬status then .ok false
    else
      let pch ← str.strchr (counter + 1) ';'
      if pch = none then lastElement str counter
      else parseLoop str rounds counter pch true

/-- `parseLinkFormat`: the status. -/
def parseLinkFormat (str : Buf) : Except Access Bool := do
  let pch ← str.strchr 0 ','
  if pch ≠ none then .ok false
  else
    let first ← str.load 0
    if first = (';' : Byte) then .ok false
    else
      let pch ← str.strchr 0 ';'
      parseLoop str str.length 0 pch false

/-! ## Validation -/

variable {s u v w : List Byte} {rest : Buf}

/-- Counting from a pointer into a string. -/
theorem countEq_text (hv : (0 : Byte) ∉ v) {n : ℕ} (hn : v.length ≤ n) :
    (do
      let pch ← (text (u ++ v) rest).strchr u.length '='
      countEq (text (u ++ v) rest) n pch) = .ok (v.count ('=' : Byte)) := by
  induction n generalizing u v with
  | zero =>
    obtain rfl := List.length_eq_zero_iff.1 (Nat.le_zero.1 hn)
    rw [strchr_text hv List.not_mem_nil (by decide)]
    rfl
  | succ n ih =>
    -- the search goes on behind the first one that is found
    by_cases hmem : ('=' : Byte) ∈ v
    · obtain ⟨w, x, rfl, hw⟩ := List.eq_append_cons_of_mem hmem
      rw [List.mem_append, List.mem_cons, not_or, not_or] at hv
      have hlen : x.length ≤ n := by
        rw [List.length_append, List.length_cons] at hn
        omega
      have hu : u ++ (w ++ ('=' : Byte) :: x) = (u ++ (w ++ [('=' : Byte)])) ++ x := by simp
      have hih := @ih (u ++ (w ++ [('=' : Byte)])) x hv.2.2 hlen
      rw [← hu] at hih
      have hpch : (((u ++ (w ++ [('=' : Byte)])).length : ℕ) : ℤ) = u.length + w.length + 1 := by
        rw [List.length_append, List.length_append, List.length_singleton]
        push_cast
        ring
      rw [hpch] at hih
      rw [strchr_text_append hv.1 hw, List.count_append, List.count_eq_zero.2 hw,
        List.count_cons_self, zero_add]
      change (do
        let pch ← (text (u ++ (w ++ ('=' : Byte) :: x)) rest).strchr (u.length + w.length + 1) '='
        let counter ← countEq (text (u ++ (w ++ ('=' : Byte) :: x)) rest) n pch
        Except.ok (counter + 1)) = _
      rw [← bind_assoc, hih]
      rfl
    · rw [strchr_text hv hmem (by decide), List.count_eq_zero.2 hmem]
      rfl

/-- The last byte of a string. -/
theorem load_last {t : List Byte} {c : Byte} :
    (text (t ++ [c]) rest).load ((t ++ [c]).length - 1) = .ok c := by
  have hlen : (((t ++ [c]).length : ℕ) : ℤ) - 1 = t.length := by
    rw [List.length_append, List.length_singleton]
    omega
  rw [hlen, load_text_append]
  rfl

theorem optionValidation_text (hs : (0 : Byte) ∉ s) :
    optionValidation (text s rest) = .ok (CoapBroker.optionValidation s) := by
  have hcount := @countEq_text [] s rest hs (text s rest).length (by simp [text])
  rw [List.nil_append, List.length_nil, Nat.cast_zero] at hcount
  rw [optionValidation, ← bind_assoc, hcount, strlen_text_zero hs, CoapBroker.optionValidation]
  simp only [bind, Except.bind]
  by_cases hshort : s.length < 3
  · rw [if_pos hshort, if_pos (.inl hshort)]
  obtain ⟨b, t, rfl⟩ := List.exists_cons_of_ne_nil (show s ≠ [] from fun h => by simp [h] at hshort)
  obtain ⟨t, c, rfl⟩ := (List.eq_nil_or_concat' t).resolve_left fun h => by simp [h] at hshort
  have hfirst : (text (b :: (t ++ [c])) rest).load 0 = .ok b :=
    @load_text_append [] (b :: (t ++ [c])) rest
  have hlast : (text (b :: (t ++ [c])) rest).load ((b :: (t ++ [c])).length - 1) = .ok c :=
    @load_last rest (b :: t) c
  have hgetLast : (b :: (t ++ [c])).getLast? = some c := List.getLast?_concat (l := b :: t)
  rw [if_neg hshort, hfirst, hlast, hgetLast]
  simp only [List.head?_cons, Option.some.injEq, hshort, false_or]
  by_cases hb : b = ('=' : Byte)
  · rw [if_pos hb, if_pos (.inl hb)]
  · by_cases hc : c = ('=' : Byte)
    · rw [if_neg hb, if_pos hc, if_pos (.inr hc)]
    · rw [if_neg hb, if_neg hc, if_neg (not_or.2 ⟨hb, hc⟩)]

/-- Finding the `=` of a segment, and the lengths on either side of it. -/
theorem scans_text (rest : Buf) {n x : List Byte} (h0 : (0 : Byte) ∉ n ++ ('=' : Byte) :: x)
    (hn : ('=' : Byte) ∉ n) :
    (text (n ++ ('=' : Byte) :: x) rest).strcspn 0 '=' = .ok n.length ∧
      (text (n ++ ('=' : Byte) :: x) rest).strchr 0 '=' = .ok (some n.length) ∧
      (text (n ++ ('=' : Byte) :: x) rest).strlen (n.length + 1) = .ok x.length := by
  rw [List.mem_append, List.mem_cons, not_or, not_or] at h0
  have hcspn := @strcspn_text_append [] x n rest ('=' : Byte) h0.1 hn
  have hchr := @strchr_text_append [] x n rest ('=' : Byte) h0.1 hn
  have hlen := @strlen_text (n ++ [('=' : Byte)]) x rest h0.2.2
  rw [List.length_nil, Nat.cast_zero, List.nil_append] at hcspn hchr
  rw [List.length_append, List.length_singleton, Nat.cast_add, Nat.cast_one, List.append_assoc,
    List.singleton_append] at hlen
  rw [zero_add] at hchr
  exact ⟨hcspn, hchr, hlen⟩

theorem calOptionSize_text (hs : (0 : Byte) ∉ s) :
    calOptionSize (text s rest) = .ok (CoapBroker.calOptionSize s) := by
  rw [calOptionSize, optionValidation_text hs, CoapBroker.calOptionSize]
  simp only [bind, Except.bind]
  by_cases hval : CoapBroker.optionValidation s = 1
  · obtain ⟨n, x, rfl, hn, -, -, -⟩ := exists_of_optionValidation hval
    obtain ⟨hcspn, hchr, hlen⟩ := scans_text rest hs hn
    rw [if_pos hval, if_pos hval, hcspn, hchr, beforeEq_of_notMem hn, afterEq_of_notMem hn]
    simp only [hlen]
  · rw [if_neg hval, if_neg hval]

/-! ## Attributes -/

/-- A segment whose value is a lone double quote. -/
def LoneQuote (s : List Byte) : Prop :=
  ∃ n, n ≠ [] ∧ n.all nameChar ∧ s = n ++ [('=' : Byte), ('"' : Byte)]

/-- Removing the last character of a string. -/
theorem store_last {t : List Byte} {c : Byte} :
    (text (t ++ [c]) rest).store ((t ++ [c]).length - 1) 0 = .ok (text t (some 0 :: rest)) := by
  have hlen : (((t ++ [c]).length : ℕ) : ℤ) - 1 = (t.map some).length := by
    rw [List.length_append, List.length_singleton, List.length_map]
    omega
  have htext : text (t ++ [c]) rest = t.map some ++ some c :: some 0 :: rest := by
    rw [text_append]
    rfl
  rw [hlen, htext, store_append_cons]
  rfl

/-- The copy of the rest of a string, without a leading double quote. -/
theorem strcpy_tail_text {x : List Byte} (h0 : (0 : Byte) ∉ x) :
    ∃ r, (if x.head?.getD 0 = ('"' : Byte)
      then (malloc (x.length + 1)).strcpy 0 (text (u ++ x) rest) (u.length + 1)
      else (malloc (x.length + 1)).strcpy 0 (text (u ++ x) rest) u.length) =
        .ok (text (if x.head? = some ('"' : Byte) then x.tail else x) r) := by
  have hroom : ∀ {d : List Byte}, d.length ≤ x.length → d.length < (malloc (x.length + 1)).length :=
    fun h => by rw [malloc, List.length_replicate]; omega
  rcases x with _ | ⟨b, x⟩
  · exact ⟨_, strcpy_text h0 (hroom le_rfl)⟩
  rw [List.mem_cons, not_or] at h0
  by_cases hb : b = ('"' : Byte)
  · have hcopy := @strcpy_text (u ++ [b]) x rest (malloc ((b :: x).length + 1)) h0.2
      (hroom (by simp))
    rw [List.append_assoc, List.singleton_append, List.length_append, List.length_singleton,
      Nat.cast_add, Nat.cast_one] at hcopy
    rw [List.head?_cons, Option.getD_some, if_pos hb, if_pos (congrArg some hb), List.tail_cons]
    exact ⟨_, hcopy⟩
  · rw [List.head?_cons, Option.getD_some, if_neg hb, if_neg (mt Option.some.inj hb)]
    exact ⟨_, strcpy_text (by simpa using h0) (hroom le_rfl)⟩

/-- The copy of a value without a leading double quote, of which the last byte is overwritten
    where the value ends with one. -/
theorem copyValue_concat (rest : Buf) {n t d : List Byte} {c : Byte}
    (h0 : (0 : Byte) ∉ n ++ ('=' : Byte) :: (t ++ [c])) (hn : ('=' : Byte) ∉ n)
    (hd : d = if (t ++ [c]).head? = some ('"' : Byte) then (t ++ [c]).tail else t ++ [c]) :
    ∃ r, copyValue (text (n ++ ('=' : Byte) :: (t ++ [c])) rest)
      (malloc ((t ++ [c]).length + 1)) n.length =
        if c = ('"' : Byte) then (text d r).store (d.length - 1) 0 else .ok (text d r) := by
  obtain ⟨-, -, hlen⟩ := scans_text rest h0 hn
  have h0x : (0 : Byte) ∉ t ++ [c] := fun h =>
    h0 (List.mem_append_right _ (List.mem_cons_of_mem _ h))
  have hd0 : (0 : Byte) ∉ d := fun h => h0x <| by
    rw [hd] at h
    split_ifs at h with hq
    · exact List.mem_of_mem_tail h
    · exact h
  -- the first byte of the value, and the copy from there on
  have hs : n ++ ('=' : Byte) :: (t ++ [c]) = (n ++ [('=' : Byte)]) ++ (t ++ [c]) := by simp
  have hp : (((n ++ [('=' : Byte)]).length : ℕ) : ℤ) = n.length + 1 := by simp
  have hfirst := @load_text_append (n ++ [('=' : Byte)]) (t ++ [c]) rest
  obtain ⟨r, hcopy⟩ := @strcpy_tail_text (n ++ [('=' : Byte)]) rest (t ++ [c]) h0x
  rw [← hs, hp] at hfirst hcopy
  rw [← hd] at hcopy
  -- its last byte
  have hlast := @load_text_append (n ++ ('=' : Byte) :: t) [c] rest
  have hs' : n ++ ('=' : Byte) :: t ++ [c] = n ++ ('=' : Byte) :: (t ++ [c]) := by simp
  have hp' : (((n ++ ('=' : Byte) :: t).length : ℕ) : ℤ) = n.length + (t ++ [c]).length := by simp
  rw [hs', hp'] at hlast
  have h2 : ((n.length : ℕ) : ℤ) + 2 = n.length + 1 + 1 := by ring
  refine ⟨r, ?_⟩
  rw [copyValue, hfirst, h2]
  simp only [bind, Except.bind, hlen, hlast]
  by_cases hq : (t ++ [c]).head?.getD 0 = ('"' : Byte)
  · rw [if_pos hq] at hcopy
    rw [if_pos hq, hcopy]
    simp only [strlen_text_zero hd0]
    rfl
  · rw [if_neg hq] at hcopy
    rw [if_neg hq, hcopy]
    simp only [strlen_text_zero hd0]
    rfl

/-- Only of a lone double quote is nothing left before the closing one is removed. -/
theorem tail_eq_nil_iff {t d : List Byte} {c : Byte} (hc : c = ('"' : Byte))
    (hd : d = if (t ++ [c]).head? = some ('"' : Byte) then (t ++ [c]).tail else t ++ [c]) :
    d = [] ↔ t ++ [c] = [('"' : Byte)] := by
  subst hc
  rcases t with _ | ⟨b, t⟩
  · rw [List.nil_append, List.head?_cons, if_pos rfl, List.tail_cons] at hd
    exact iff_of_true hd rfl
  · have hne : d ≠ [] := by
      rw [hd, List.cons_append, List.tail_cons]
      split_ifs
      · exact List.append_ne_nil_of_right_ne_nil t (List.cons_ne_nil _ _)
      · exact List.cons_ne_nil _ _
    exact iff_of_false hne (by simp)

/-- The value of an attribute is what unquoting leaves of it. Of a lone double quote nothing is
    copied, and the byte before the copy is written. -/
theorem copyValue_text (rest : Buf) {n x : List Byte} (h0 : (0 : Byte) ∉ n ++ ('=' : Byte) :: x)
    (hn : ('=' : Byte) ∉ n) (hx : x ≠ []) :
    if x = [('"' : Byte)] then
      copyValue (text (n ++ ('=' : Byte) :: x) rest) (malloc (x.length + 1)) n.length =
        .error (.write (-1))
    else ∃ r, copyValue (text (n ++ ('=' : Byte) :: x) rest) (malloc (x.length + 1)) n.length =
      .ok (text (unquote x) r) := by
  obtain ⟨t, c, rfl⟩ := (List.eq_nil_or_concat' x).resolve_left hx
  obtain ⟨d, hd⟩ : ∃ d,
      d = if (t ++ [c]).head? = some ('"' : Byte) then (t ++ [c]).tail else t ++ [c] :=
    ⟨_, rfl⟩
  obtain ⟨r, hcopy⟩ := copyValue_concat rest h0 hn hd
  have hunquote : unquote (t ++ [c]) = if c = ('"' : Byte) then d.dropLast else d := by
    rw [unquote, ← hd, List.getLast?_concat]
    simp only [Option.some.injEq]
  rw [hcopy, hunquote]
  by_cases hc : c = ('"' : Byte)
  · simp only [if_pos hc, ← tail_eq_nil_iff hc hd]
    rcases List.eq_nil_or_concat' d with rfl | ⟨v, e, rfl⟩
    · rw [if_pos rfl]
      exact store_neg (by simp)
    · rw [if_neg (by simp), store_last, List.dropLast_concat]
      exact ⟨_, rfl⟩
  · have hquote : t ++ [c] ≠ [('"' : Byte)] := fun h => hc <| by
      have hlast := congrArg List.getLast? h
      rw [List.getLast?_concat] at hlast
      exact Option.some.inj hlast
    simp only [if_neg hc, if_neg hquote]
    exact ⟨r, rfl⟩

/-- Parsing an attribute, its name having been copied. -/
theorem parseOption_text_eq {n x : List Byte} {data : Buf}
    (hs : (0 : Byte) ∉ n ++ ('=' : Byte) :: x)
    (hval : CoapBroker.optionValidation (n ++ ('=' : Byte) :: x) = 1) (hn : ('=' : Byte) ∉ n) :
    parseOption (text (n ++ ('=' : Byte) :: x) rest) (malloc (n.length + 1)) data =
      if n.all nameChar then do
        let data ← copyValue (text (n ++ ('=' : Byte) :: x) rest) data n.length
        let dataLength ← data.strlen 0
        let dataValid ← data.allFrom nameChar 0 dataLength
        .ok (text n [], data, dataValid)
      else .ok (text n [], data, false) := by
  obtain ⟨hcspn, hchr, -⟩ := scans_text rest hs hn
  have h0n : (0 : Byte) ∉ n := fun h => hs (List.mem_append_left _ h)
  have hname := @strncpy_store_bind [] n (('=' : Byte) :: x) rest (Buf × Buf × Bool) h0n
  rw [List.nil_append, List.length_nil, Nat.cast_zero] at hname
  rw [parseOption, optionValidation_text hs, hval, hcspn, hchr]
  change parseOptionAt _ _ data n.length n.length = _
  rw [parseOptionAt, hname, strlen_text_zero h0n]
  simp only [bind, Except.bind, allFrom_text_zero]
  by_cases hall : n.all nameChar = true
  · rw [if_neg (not_not.2 hall), if_pos hall]
  · rw [if_pos hall, if_neg hall]

theorem loneQuote_iff {n x : List Byte} (hn : ('=' : Byte) ∉ n) (hne : n ≠ []) :
    LoneQuote (n ++ ('=' : Byte) :: x) ↔ n.all nameChar ∧ x = [('"' : Byte)] := by
  constructor
  · rintro ⟨n', -, hall, h⟩
    have hn' : ('=' : Byte) ∉ n' := notMem_of_chars not_nameChar_eq (List.all_eq_true.1 hall)
    have hbefore := congrArg beforeEq h
    have hafter := congrArg afterEq h
    rw [beforeEq_of_notMem hn, beforeEq_of_notMem hn'] at hbefore
    rw [afterEq_of_notMem hn, afterEq_of_notMem hn'] at hafter
    exact ⟨hbefore ▸ hall, hafter⟩
  · rintro ⟨hall, rfl⟩
    exact ⟨n, hne, hall, rfl⟩

/-- Parsing an attribute: an error comes of a lone double quote only. -/
theorem parseOption_text (rest : Buf) (hs : (0 : Byte) ∉ s) {typeSize dataSize : ℕ}
    (hsize : CoapBroker.calOptionSize s = some (typeSize, dataSize)) :
    (LoneQuote s → parseOption (text s rest) (malloc (typeSize + 1)) (malloc (dataSize + 1)) =
      .error (.write (-1))) ∧
    (¬LoneQuote s → ∃ type data,
      parseOption (text s rest) (malloc (typeSize + 1)) (malloc (dataSize + 1)) =
        .ok (type, data, (CoapBroker.parseOption s).isSome) ∧
      ∀ n v, CoapBroker.parseOption s = some (n, v) → ∃ r₁ r₂, type = text n r₁ ∧ data = text v r₂) := by
  rw [CoapBroker.calOptionSize] at hsize
  split_ifs at hsize with hval
  obtain ⟨n, x, rfl, hn, -, hn0, hx0⟩ := exists_of_optionValidation hval
  rw [beforeEq_of_notMem hn, afterEq_of_notMem hn] at hsize
  obtain ⟨rfl, rfl⟩ := Prod.mk.inj (Option.some.inj hsize)
  have h0x : (0 : Byte) ∉ x := fun h => hs (by simp [h])
  have hcopy := copyValue_text rest hs hn hx0
  rw [parseOption_text_eq hs hval hn, CoapBroker.parseOption, if_pos hval, beforeEq_of_notMem hn,
    afterEq_of_notMem hn, loneQuote_iff hn hn0]
  by_cases hall : n.all nameChar = true
  · by_cases hx : x = [('"' : Byte)]
    · rw [if_pos hx] at hcopy
      refine ⟨fun _ => ?_, fun h => absurd ⟨hall, hx⟩ h⟩
      rw [if_pos hall, hcopy]
      rfl
    · rw [if_neg hx] at hcopy
      obtain ⟨r, hcopy⟩ := hcopy
      refine ⟨fun h => absurd h.2 hx, fun _ => ?_⟩
      have h0 : (0 : Byte) ∉ unquote x := by
        obtain ⟨l, r, hlr, -, -⟩ := unquote_spec x
        exact fun h => h0x (by rw [hlr]; simp [h])
      simp only [if_pos hall, hcopy, bind, Except.bind, strlen_text_zero h0, allFrom_text_zero]
      refine ⟨text n [], text (unquote x) r, ?_, fun m v h => ?_⟩
      · by_cases hv : (unquote x).all nameChar = true
        · rw [hv, if_pos rfl]
          rfl
        · rw [if_neg hv, eq_false_of_ne_true hv]
          rfl
      · split_ifs at h
        obtain ⟨rfl, rfl⟩ := Prod.mk.inj (Option.some.inj h)
        exact ⟨[], r, rfl, rfl⟩
  · refine ⟨fun h => absurd h.1 hall, fun _ => ?_⟩
    simp only [if_neg hall]
    exact ⟨_, _, rfl, fun _ _ h => absurd h (by simp)⟩

/-! ## Paths -/

theorem getD_eq_iff {o : Option Byte} {c : Byte} (hc : c ≠ 0) : o.getD 0 = c ↔ o = some c := by
  cases o with
  | none => simpa using hc.symm
  | some b => simp

theorem calPathSize_text (hs : (0 : Byte) ∉ s) :
    calPathSize (text s rest) = if s = [('<' : Byte)] then .error (.read (-1))
      else .ok (CoapBroker.calPathSize s) := by
  have hload : ∀ (i : ℕ) (j : ℤ), j = i → i ≤ s.length →
      load (text s rest) j = .ok (s[i]?.getD 0) := by
    rintro i j rfl hi
    exact load_text hi
  have hlt : ('<' : Byte) ≠ 0 := by decide
  have hsl : ('/' : Byte) ≠ 0 := by decide
  have hgt : ('>' : Byte) ≠ 0 := by decide
  rw [calPathSize, hload 0 0 rfl (Nat.zero_le _), CoapBroker.calPathSize]
  simp only [bind, Except.bind, getD_eq_iff hlt]
  by_cases h0 : s[0]? = some ('<' : Byte)
  · rw [if_pos h0]
    have hpos : 0 < s.length := (List.getElem?_eq_some_iff.1 h0).1
    rw [hload 1 1 rfl hpos, strlen_text_zero hs]
    simp only [ne_eq, getD_eq_iff hsl]
    rcases Nat.lt_or_ge s.length 2 with hone | htwo
    · have hs1 : s = [('<' : Byte)] := by
        obtain ⟨b, rfl⟩ := List.length_eq_one_iff.1 (show s.length = 1 by omega)
        rw [Option.some.inj h0]
      rw [if_pos hs1, hs1]
      rfl
    have hne : s ≠ [('<' : Byte)] := by
      rintro rfl
      exact absurd htwo (by decide)
    rw [if_neg hne, hload (s.length - 2) _ (by omega) (by omega),
      hload (s.length - 1) _ (by omega) (by omega)]
    simp only [getD_eq_iff hsl, getD_eq_iff hgt]
    by_cases h1 : s[1]? = some ('/' : Byte)
    · rw [if_neg (not_not.2 h1), if_neg fun h => h.2.1 h1]
    by_cases h2 : s[s.length - 2]? = some ('/' : Byte)
    · rw [if_pos h1, if_neg (not_not.2 h2), if_neg fun h => h.2.2.1 h2]
    by_cases h3 : s[s.length - 1]? = some ('>' : Byte)
    · rw [if_pos h1, if_pos h2, if_pos h3, if_pos ⟨h0, h1, h2, h3⟩]
    · rw [if_pos h1, if_pos h2, if_neg h3, if_neg fun h => h3 h.2.2.2]
  · have hne : s ≠ [('<' : Byte)] := by
      rintro rfl
      exact h0 rfl
    rw [if_neg h0, if_neg hne, if_neg fun h => h0 h.1]

theorem parsePath_text (rest : Buf) (hs : (0 : Byte) ∉ s) (h : s ≠ [('<' : Byte)]) :
    ∃ path, parsePath (text s rest) (malloc (CoapBroker.calPathSize s + 1)) =
        .ok (path, (CoapBroker.parsePath s).isSome) ∧
      ∀ p, CoapBroker.parsePath s = some p → ∃ r, path = text p r := by
  rw [parsePath, calPathSize_text hs, if_neg h, CoapBroker.parsePath]
  simp only [bind, Except.bind, strlen_text_zero hs]
  by_cases hsize : CoapBroker.calPathSize s = 0
  · simp only [if_neg (not_not.2 hsize)]
    exact ⟨_, rfl, fun _ h => absurd h (by simp)⟩
  have hlen : CoapBroker.calPathSize s = s.length - 2 := by
    rw [CoapBroker.calPathSize] at hsize ⊢
    split_ifs at hsize ⊢
    · rfl
    · exact absurd rfl hsize
  obtain ⟨u, p, w, rfl, hu, hp⟩ : ∃ u p w, s = u ++ (p ++ w) ∧ u.length = 1 ∧
      p.length = s.length - 2 := by
    refine ⟨s.take 1, (s.drop 1).take (s.length - 2), (s.drop 1).drop (s.length - 2), ?_, ?_, ?_⟩
    · rw [List.take_append_drop, List.take_append_drop]
    · rw [List.length_take]
      omega
    · rw [List.length_take, List.length_drop]
      omega
  have hdrop : ((u ++ (p ++ w)).drop 1).take ((u ++ (p ++ w)).length - 2) = p := by
    rw [List.drop_left' hu, List.take_left' hp]
  have h0p : (0 : Byte) ∉ p := fun h => hs (by simp [h])
  have hcopy := @strncpy_store_bind u p w rest (Buf × Bool) h0p
  rw [hu, Nat.cast_one] at hcopy
  have hall : ∀ r, allFrom (text p r) pathChar 0 p.length = .ok (p.all pathChar) := fun r =>
    allFrom_text_zero
  simp only [if_pos hsize, hdrop]
  rw [hlen, ← hp]
  simp only [bind, Except.bind] at hcopy
  rw [hcopy]
  refine ⟨text p [], ?_, fun q h => ?_⟩
  · rw [hall]
    by_cases hp : p.all pathChar = true
    · rw [hp, if_pos rfl]
      rfl
    · rw [if_neg hp, eq_false_of_ne_true hp]
      rfl
  · split_ifs at h
    obtain rfl := Option.some.inj h
    exact ⟨[], rfl⟩

theorem pathRegister_text (hs : (0 : Byte) ∉ s) :
    pathRegister (text s rest) = if s = [('<' : Byte)] then .error (.read (-1))
      else .ok (CoapBroker.parsePath s).isSome := by
  rw [pathRegister, calPathSize_text hs]
  by_cases h : s = [('<' : Byte)]
  · rw [if_pos h, if_pos h]
    rfl
  obtain ⟨path, hpath, -⟩ := parsePath_text rest hs h
  rw [if_neg h, if_neg h]
  simp only [bind, Except.bind, hpath]
  by_cases hsize : 0 < CoapBroker.calPathSize s
  · rw [if_pos hsize]
  · rw [if_neg hsize, CoapBroker.parsePath, if_neg (by omega)]
    rfl

/-! ## Registering elements -/

theorem LoneQuote.calOptionSize_eq (h : LoneQuote s) :
    (0 : Byte) ∉ s ∧ ∃ typeSize, CoapBroker.calOptionSize s = some (typeSize, 1) := by
  obtain ⟨n, hne, hall, rfl⟩ := h
  have hn : ('=' : Byte) ∉ n := notMem_of_chars not_nameChar_eq (List.all_eq_true.1 hall)
  have h0 : (0 : Byte) ∉ n := notMem_of_chars not_nameChar_nul (List.all_eq_true.1 hall)
  have hpos : 0 < n.length := List.length_pos_iff.2 hne
  have hval : CoapBroker.optionValidation (n ++ [('=' : Byte), ('"' : Byte)]) = 1 := by
    rw [CoapBroker.optionValidation, if_neg, List.count_append, List.count_eq_zero.2 hn]
    · rfl
    · rintro (hlen | hhead | hlast)
      · rw [List.length_append] at hlen
        exact absurd hlen (Nat.not_lt.2 (Nat.succ_le_succ (Nat.succ_le_succ hpos)))
      · rw [List.head?_append_of_ne_nil _ hne] at hhead
        exact hn (List.mem_of_mem_head? hhead)
      · rw [List.getLast?_append_of_ne_nil _ (List.cons_ne_nil _ _)] at hlast
        exact absurd hlast (by decide)
  refine ⟨by simpa [h0] using by decide, n.length, ?_⟩
  rw [CoapBroker.calOptionSize, if_pos hval, beforeEq_of_notMem hn, afterEq_of_notMem hn]
  rfl

theorem optionRegister_loneQuote (h : LoneQuote s) :
    optionRegister (text s rest) = .error (.write (-1)) := by
  obtain ⟨hs, typeSize, hsize⟩ := h.calOptionSize_eq
  have herror := (parseOption_text rest hs hsize).1 h
  rw [optionRegister, calOptionSize_text hs, hsize]
  simp only [bind, Except.bind, herror, if_pos (calOptionSize_pos hsize)]

theorem optionRegister_text (hs : (0 : Byte) ∉ s) (h : ¬LoneQuote s) :
    optionRegister (text s rest) = .ok (CoapBroker.parseOption s).isSome := by
  rw [optionRegister, calOptionSize_text hs]
  rcases hopt : CoapBroker.parseOption s with _ | ⟨n, v⟩
  · rcases hsize : CoapBroker.calOptionSize s with _ | ⟨typeSize, dataSize⟩
    · rfl
    obtain ⟨type, data, hp, -⟩ := (parseOption_text rest hs hsize).2 h
    simp only [bind, Except.bind, if_pos (calOptionSize_pos hsize), hp, hopt]
    rfl
  · obtain ⟨typeSize, dataSize, hsize, hpos⟩ := calOptionSize_of_parseOption hopt
    obtain ⟨type, data, hp, hbufs⟩ := (parseOption_text rest hs hsize).2 h
    obtain ⟨r₁, r₂, rfl, rfl⟩ := hbufs n v hopt
    obtain ⟨-, -, -, -, -, -, -, hn, hv⟩ := parseOption_eq_some.1 hopt
    have h0n : (0 : Byte) ∉ n := notMem_of_chars not_nameChar_nul hn
    have h0v : (0 : Byte) ∉ v := notMem_of_chars not_nameChar_nul hv
    rw [hsize]
    simp only [bind, Except.bind, if_pos hpos, hp, hopt, strlen_text_zero h0n,
      strlen_text_zero h0v]
    rfl

/-- Registering elements one after the other, up to the first that is refused. -/
def registerAll : List (List Byte) → Except Access Bool
  | [] => .ok true
  | s :: ss => do
    let status ← optionRegister (text s [])
    if status then registerAll ss else .ok false

/-- An element with a lone double quote, all elements before it being attributes. -/
def ReachesLoneQuote (ss : List (List Byte)) : Prop :=
  Reaches (fun s => ∃ n v, IsAttrElement s n v) LoneQuote ss

theorem registerAll_cases {ss : List (List Byte)} (h0 : ∀ s ∈ ss, (0 : Byte) ∉ s) :
    (ReachesLoneQuote ss → registerAll ss = .error (.write (-1))) ∧
    (¬ReachesLoneQuote ss →
      registerAll ss = .ok (ss.all fun s => (CoapBroker.parseOption s).isSome)) := by
  induction ss with
  | nil =>
    exact ⟨fun h => absurd h not_reaches_nil, fun _ => rfl⟩
  | cons s ss ih =>
    obtain ⟨hs, h0⟩ := List.forall_mem_cons.1 h0
    rw [ReachesLoneQuote, reaches_cons, ← ReachesLoneQuote, registerAll, List.all_cons]
    by_cases hlone : LoneQuote s
    · refine ⟨fun _ => ?_, fun h => absurd (.inl hlone) h⟩
      rw [optionRegister_loneQuote hlone]
      rfl
    rw [optionRegister_text hs hlone]
    rcases hopt : CoapBroker.parseOption s with _ | ⟨n, v⟩
    · -- the element is refused, and nothing behind it is looked at
      refine ⟨?_, fun _ => rfl⟩
      rintro (h | ⟨⟨n, v, h⟩, -⟩)
      · exact absurd h hlone
      · rw [parseOption_eq_some.2 h] at hopt
        exact absurd hopt (by simp)
    · have hattr : ∃ n v, IsAttrElement s n v := ⟨n, v, parseOption_eq_some.1 hopt⟩
      refine ⟨fun h => (ih h0).1 (h.resolve_left hlone).2, fun h => ?_⟩
      exact (ih h0).2 fun hss => h (.inr ⟨hattr, hss⟩)

/-! ## The loop -/

theorem copySegment_text {size start n : ℤ} (hv : (0 : Byte) ∉ v) (hsize : size = v.length + 1)
    (hstart : start = u.length) (hn : n = v.length) :
    copySegment size (text (u ++ (v ++ w)) rest) start n = .ok (text v []) := by
  have htoNat : ((v.length : ℤ) + 1).toNat = v.length + 1 := by omega
  rw [copySegment, hsize, hstart, hn, htoNat, Int.toNat_natCast]
  exact strncpy_store_malloc hv

/-- The element that ends at a semicolon, with one before it. -/
theorem element_text (hv : (0 : Byte) ∉ v) :
    element (text (u ++ (';' : Byte) :: (v ++ w)) rest) u.length (u.length + 1 + v.length) =
      optionRegister (text v []) := by
  have hload : (text (u ++ (';' : Byte) :: (v ++ w)) rest).load u.length = .ok (';' : Byte) :=
    load_text_append
  have hs : u ++ (';' : Byte) :: (v ++ w) = (u ++ [(';' : Byte)]) ++ (v ++ w) := by simp
  have hcopy := @copySegment_text (u ++ [(';' : Byte)]) v w rest
    (u.length + 1 + v.length - u.length) (u.length + 1) (u.length + 1 + v.length - u.length - 1) hv
    (by ring) (by simp) (by ring)
  rw [← hs] at hcopy
  rw [element, hload]
  simp only [bind, Except.bind, not_true_eq_false, ne_eq, if_false, hcopy]

/-- The element at the beginning of the string. -/
theorem element_zero_text (hv : (0 : Byte) ∉ v) (hsemi : (';' : Byte) ∉ v) (hne : v ≠ []) :
    element (text (v ++ w) rest) 0 v.length = pathRegister (text v []) := by
  obtain ⟨b, t, rfl⟩ := List.exists_cons_of_ne_nil hne
  have hload : (text (b :: t ++ w) rest).load 0 = .ok b := @load_text_append [] (b :: t ++ w) rest
  have hb : b ≠ (';' : Byte) := fun h => hsemi (h ▸ List.mem_cons_self)
  have hcopy := @copySegment_text [] (b :: t) w rest ((b :: t).length - 0 + 1) 0
    ((b :: t).length - 0) hv (by ring) rfl (by ring)
  rw [List.nil_append] at hcopy
  rw [element, hload]
  simp only [bind, Except.bind, if_pos hb, hcopy]

/-- The element at the end of the string. -/
theorem lastElement_text (hv : (0 : Byte) ∉ v) :
    lastElement (text (u ++ (';' : Byte) :: v) rest) u.length = optionRegister (text v []) := by
  have hs : u ++ (';' : Byte) :: v = (u ++ [(';' : Byte)]) ++ (v ++ []) := by simp
  have hp : (((u ++ [(';' : Byte)]).length : ℕ) : ℤ) = u.length + 1 := by simp
  have hlen := @strlen_text (u ++ [(';' : Byte)]) (v ++ []) rest (by simpa using hv)
  have hcopy := @copySegment_text (u ++ [(';' : Byte)]) v [] rest
    (v.length + 1) (u.length + 1) v.length hv rfl hp.symm rfl
  rw [← hs, hp, List.append_nil] at hlen
  rw [← hs] at hcopy
  rw [lastElement, hlen]
  simp only [bind, Except.bind, hcopy]

theorem registerAll_singleton : registerAll [s] = optionRegister (text s []) := by
  rw [registerAll]
  rcases optionRegister (text s []) with e | _ | _ <;> rfl

/-- After an element, the loop goes on behind the semicolon, at least to the next element. -/
theorem parseLoop_next {t : List Byte} {ss : List (List Byte)} (h0 : ∀ s ∈ t :: ss, (0 : Byte) ∉ s)
    (hsemi : ∀ s ∈ t :: ss, (';' : Byte) ∉ s) {rounds : ℕ} {last : ℤ} {e : Except Access Bool}
    (he : element (text (u ++ (';' : Byte) :: [(';' : Byte)].intercalate (t :: ss)) rest) last
      u.length = e)
    (hnext : ss ≠ [] → parseLoop (text (u ++ (';' : Byte) :: [(';' : Byte)].intercalate (t :: ss)) rest)
      rounds u.length (some (u.length + 1 + t.length)) true = registerAll (t :: ss)) (status : Bool) :
    parseLoop (text (u ++ (';' : Byte) :: [(';' : Byte)].intercalate (t :: ss)) rest) (rounds + 1) last
      (some u.length) status = (do
        let status ← e
        if status then registerAll (t :: ss) else .ok false) := by
  have h0t : (0 : Byte) ∉ t := h0 t List.mem_cons_self
  have hsemit : (';' : Byte) ∉ t := hsemi t List.mem_cons_self
  have hp : (((u ++ [(';' : Byte)]).length : ℕ) : ℤ) = u.length + 1 := by simp
  rw [parseLoop, he]
  rcases e with f | _ | _
  · rfl
  · rfl
  · simp only [bind, Except.bind, not_true_eq_false, if_false, if_true]
    rcases ss with _ | ⟨t', ss⟩
    · have hchr := @strchr_text (u ++ [(';' : Byte)]) t rest (';' : Byte) h0t hsemit (by decide)
      rw [hp, List.append_assoc, List.singleton_append] at hchr
      rw [List.intercalate_singleton, hchr, registerAll_singleton]
      exact lastElement_text h0t
    · have hchr := @strchr_text_append (u ++ [(';' : Byte)])
        ([(';' : Byte)].intercalate (t' :: ss)) t rest (';' : Byte) h0t hsemit
      rw [hp, List.append_assoc, List.singleton_append, ← intercalate_cons_cons] at hchr
      rw [hchr]
      exact hnext (List.cons_ne_nil t' ss)

/-- Past the first element, the loop registers the ones ahead, at least two. -/
theorem parseLoop_text {ss : List (List Byte)} (h0 : ∀ t ∈ s :: ss, (0 : Byte) ∉ t)
    (hsemi : ∀ t ∈ s :: ss, (';' : Byte) ∉ t) (hss : ss ≠ []) {rounds : ℕ}
    (hrounds : ss.length ≤ rounds) (status : Bool) :
    parseLoop (text (u ++ (';' : Byte) :: [(';' : Byte)].intercalate (s :: ss)) rest) rounds u.length
      (some (u.length + 1 + s.length)) status = registerAll (s :: ss) := by
  induction ss generalizing u s rounds status with
  | nil => exact absurd rfl hss
  | cons t ss ih =>
    obtain ⟨rounds, rfl⟩ :=
      Nat.exists_eq_add_of_le' (Nat.le_trans (Nat.succ_le_succ (Nat.zero_le _)) hrounds)
    obtain ⟨h0s, h0t⟩ := List.forall_mem_cons.1 h0
    obtain ⟨-, hsemit⟩ := List.forall_mem_cons.1 hsemi
    have hstr : u ++ (';' : Byte) :: [(';' : Byte)].intercalate (s :: t :: ss) =
        (u ++ (';' : Byte) :: s) ++ (';' : Byte) :: [(';' : Byte)].intercalate (t :: ss) := by
      rw [intercalate_cons_cons, List.append_assoc, List.cons_append]
    have hp : (((u ++ (';' : Byte) :: s).length : ℕ) : ℤ) = u.length + 1 + s.length := by
      rw [List.length_append, List.length_cons]
      push_cast
      ring
    have helement := @element_text u s ((';' : Byte) :: [(';' : Byte)].intercalate (t :: ss)) rest h0s
    rw [← intercalate_cons_cons, hstr, ← hp] at helement
    rw [hstr, ← hp, parseLoop_next h0t hsemit helement]
    · rfl
    · exact fun hss => ih h0t hsemit hss (Nat.le_of_succ_le_succ hrounds) true

/-- The first element is a path; the others are registered. -/
theorem parseLoop_zero_text {ss : List (List Byte)} (h0 : ∀ t ∈ s :: ss, (0 : Byte) ∉ t)
    (hsemi : ∀ t ∈ s :: ss, (';' : Byte) ∉ t) (hss : ss ≠ []) (hs : s ≠ []) {rounds : ℕ}
    (hrounds : ss.length ≤ rounds) :
    parseLoop (text ([(';' : Byte)].intercalate (s :: ss)) rest) rounds 0 (some s.length) false = (do
      let status ← pathRegister (text s [])
      if status then registerAll ss else .ok false) := by
  obtain ⟨t, ss, rfl⟩ := List.exists_cons_of_ne_nil hss
  obtain ⟨rounds, rfl⟩ :=
    Nat.exists_eq_add_of_le' (Nat.le_trans (Nat.succ_le_succ (Nat.zero_le _)) hrounds)
  obtain ⟨h0s, h0t⟩ := List.forall_mem_cons.1 h0
  obtain ⟨hsemis, hsemit⟩ := List.forall_mem_cons.1 hsemi
  have helement := @element_zero_text s ((';' : Byte) :: [(';' : Byte)].intercalate (t :: ss)) rest h0s
    hsemis hs
  rw [intercalate_cons_cons, parseLoop_next h0t hsemit helement]
  exact fun hss => parseLoop_text h0t hsemit hss (Nat.le_of_succ_le_succ hrounds) true

/-! ## The parser -/

theorem parseLoop_none (str : Buf) (rounds : ℕ) (last : ℤ) (status : Bool) :
    parseLoop str rounds last none status = .ok status := by
  cases rounds <;> rfl

theorem parseLinkFormat_comma (h0 : (0 : Byte) ∉ s) (hcomma : (',' : Byte) ∈ s) :
    parseLinkFormat (text s rest) = .ok false := by
  obtain ⟨w, v, rfl, hw⟩ := List.eq_append_cons_of_mem hcomma
  rw [List.mem_append, not_or] at h0
  have hchr := @strchr_text_append [] v w rest (',' : Byte) h0.1 hw
  rw [List.nil_append, List.length_nil, Nat.cast_zero] at hchr
  rw [parseLinkFormat, hchr]
  rfl

theorem length_le_length_intercalate (ss : List (List Byte)) :
    ss.length ≤ ([(';' : Byte)].intercalate (s :: ss)).length := by
  induction ss generalizing s with
  | nil => exact Nat.zero_le _
  | cons t ss ih =>
    rw [intercalate_cons_cons, List.length_append, List.length_cons, List.length_cons]
    exact (Nat.succ_le_succ ih).trans (Nat.le_add_left _ _)

/-- Without a comma, the first element is the path; the others, if there are any, are
    registered. -/
theorem parseLinkFormat_intercalate {ss : List (List Byte)} (h0 : ∀ t ∈ s :: ss, (0 : Byte) ∉ t)
    (hsemi : ∀ t ∈ s :: ss, (';' : Byte) ∉ t)
    (hcomma : (',' : Byte) ∉ [(';' : Byte)].intercalate (s :: ss)) :
    parseLinkFormat (text ([(';' : Byte)].intercalate (s :: ss)) rest) =
      if s = [] ∨ ss = [] then .ok false else (do
        let status ← pathRegister (text s [])
        if status then registerAll ss else .ok false) := by
  obtain ⟨h0s, -⟩ := List.forall_mem_cons.1 h0
  obtain ⟨hsemis, -⟩ := List.forall_mem_cons.1 hsemi
  have h0str : (0 : Byte) ∉ [(';' : Byte)].intercalate (s :: ss) :=
    notMem_intercalate (by decide) h0
  have hchr := @strchr_text [] _ rest _ h0str hcomma (by decide)
  have hload := @load_text_append [] ([(';' : Byte)].intercalate (s :: ss)) rest
  rw [List.nil_append, List.length_nil, Nat.cast_zero] at hchr hload
  rw [parseLinkFormat, hchr, hload]
  simp only [bind, Except.bind, ne_eq, not_true_eq_false, if_false]
  rcases s with _ | ⟨b, s⟩
  · refine Eq.trans ?_ (if_pos (.inl rfl)).symm
    rcases ss with _ | ⟨t, ss⟩
    · rfl
    · rw [intercalate_cons_cons]
      rfl
  have hb : b ≠ (';' : Byte) := fun h => hsemis (h ▸ List.mem_cons_self)
  rcases ss with _ | ⟨t, ss⟩
  · have hnone := @strchr_text [] (b :: s) rest _ h0s hsemis (by decide)
    rw [List.nil_append, List.length_nil, Nat.cast_zero] at hnone
    refine Eq.trans ?_ (if_pos (.inr rfl)).symm
    rw [List.intercalate_singleton, hnone, List.head?_cons, Option.getD_some, if_neg hb]
    exact parseLoop_none _ _ _ _
  · have hsome := @strchr_text_append [] ([(';' : Byte)].intercalate (t :: ss)) (b :: s) rest _ h0s
      hsemis
    rw [List.nil_append, List.length_nil, Nat.cast_zero, zero_add, ← intercalate_cons_cons] at hsome
    have hhead : ([(';' : Byte)].intercalate ((b :: s) :: t :: ss)).head?.getD 0 = b := by
      rw [intercalate_cons_cons]
      rfl
    have hrounds : (t :: ss).length ≤
        (text ([(';' : Byte)].intercalate ((b :: s) :: t :: ss)) rest).length := by
      rw [text, List.length_append, List.length_map]
      exact (length_le_length_intercalate _).trans (Nat.le_add_right _ _)
    rw [hhead, if_neg hb, hsome, if_neg (by simp)]
    exact parseLoop_zero_text h0 hsemi (List.cons_ne_nil t ss) (List.cons_ne_nil b s) hrounds

/-- The payloads in which the parser comes to an element it oversteps: there is no comma, and the
    first element is `<`, or it is a path and an element with a lone double quote is reached. -/
def Overruns (str : List Byte) : Prop :=
  (',' : Byte) ∉ str ∧ ∃ s ss, str = [(';' : Byte)].intercalate (s :: ss) ∧
    (∀ t ∈ s :: ss, (';' : Byte) ∉ t) ∧ ss ≠ [] ∧
    (s = [('<' : Byte)] ∨ (∃ p, IsPathElement s p) ∧ ReachesLoneQuote ss)

theorem overruns_intercalate {ss : List (List Byte)} (hsemi : ∀ t ∈ s :: ss, (';' : Byte) ∉ t)
    (hcomma : (',' : Byte) ∉ [(';' : Byte)].intercalate (s :: ss)) :
    Overruns ([(';' : Byte)].intercalate (s :: ss)) ↔
      ss ≠ [] ∧ (s = [('<' : Byte)] ∨ (∃ p, IsPathElement s p) ∧ ReachesLoneQuote ss) := by
  constructor
  · rintro ⟨-, s', ss', heq, hsemi', h⟩
    obtain ⟨rfl, rfl⟩ := eq_of_intercalate_eq hsemi hsemi' heq
    exact h
  · exact fun h => ⟨hcomma, s, ss, rfl, hsemi, h⟩

/-- A text of elements is of the grammar when all of its elements are. -/
theorem linkText_intercalate {ss : List (List Byte)} (hsemi : ∀ t ∈ s :: ss, (';' : Byte) ∉ t) :
    (∃ p attrs, LinkText ([(';' : Byte)].intercalate (s :: ss)) p attrs) ↔
      (∃ p, IsPathElement s p) ∧ ss ≠ [] ∧ ∀ t ∈ ss, ∃ n v, IsAttrElement t n v := by
  constructor
  · rintro ⟨p, attrs, h⟩
    obtain ⟨hp, hss, hattrs⟩ := h.elements hsemi
    refine ⟨⟨p, hp⟩, hss, fun t ht => ?_⟩
    obtain ⟨a, -, ha⟩ := exists_of_mem_forall₂ hattrs ht
    exact ⟨a.1, a.2, ha⟩
  · rintro ⟨⟨p, hp⟩, hss, hall⟩
    have hall' : ∀ t ∈ ss, ∃ a : List Byte × List Byte, IsAttrElement t a.1 a.2 := fun t ht => by
      obtain ⟨n, v, h⟩ := hall t ht
      exact ⟨(n, v), h⟩
    obtain ⟨attrs, hattrs⟩ := exists_forall₂ hall'
    exact ⟨p, attrs, s, ss, rfl, hp, hss, hattrs⟩

/-- With its accesses checked, the parser gives an error if it comes to such an element, and
    otherwise accepts the texts of the grammar. -/
theorem parseLinkFormat_text (str : CStr) :
    (Overruns str.bytes → ∃ e, parseLinkFormat (text str.bytes []) = .error e) ∧
    (¬Overruns str.bytes → ∃ status, parseLinkFormat (text str.bytes []) = .ok status ∧
      (status = true ↔ ∃ p attrs, LinkText str.bytes p attrs)) := by
  by_cases hcomma : (',' : Byte) ∈ str.bytes
  · rw [parseLinkFormat_comma str.nul_free hcomma]
    refine ⟨fun h => absurd hcomma h.1, fun _ => ⟨false, rfl, iff_of_false Bool.false_ne_true ?_⟩⟩
    rintro ⟨p, attrs, h⟩
    exact h.comma_notMem hcomma
  obtain ⟨s, ss, hstr, hsemi⟩ := exists_pieces ';' str.bytes
  have h0 : ∀ t ∈ s :: ss, (0 : Byte) ∉ t := fun t ht h =>
    str.nul_free (hstr ▸ mem_intercalate_of_mem h ht)
  obtain ⟨h0s, h0ss⟩ := List.forall_mem_cons.1 h0
  rw [hstr] at hcomma
  rw [hstr, parseLinkFormat_intercalate h0 hsemi hcomma, overruns_intercalate hsemi hcomma,
    linkText_intercalate hsemi, pathRegister_text h0s]
  by_cases hempty : s = [] ∨ ss = []
  · rw [if_pos hempty]
    have hpath : ss ≠ [] → s ≠ [('<' : Byte)] ∧ ¬∃ p, IsPathElement s p := fun hss => by
      obtain rfl := hempty.resolve_right hss
      exact ⟨by simp, fun ⟨p, hp⟩ => absurd hp.eq (by simp)⟩
    refine ⟨fun ⟨hss, h⟩ => ?_, fun _ => ⟨false, rfl, iff_of_false Bool.false_ne_true ?_⟩⟩
    · rcases h with h | ⟨h, -⟩
      · exact absurd h (hpath hss).1
      · exact absurd h (hpath hss).2
    · exact fun h => (hpath h.2.1).2 h.1
  rw [if_neg hempty]
  rw [not_or] at hempty
  by_cases hlt : s = [('<' : Byte)]
  · rw [if_pos hlt]
    exact ⟨fun _ => ⟨_, rfl⟩, fun h => absurd ⟨hempty.2, .inl hlt⟩ h⟩
  rw [if_neg hlt, or_iff_right hlt]
  rcases hpath : CoapBroker.parsePath s with _ | p
  · have hp : ¬∃ p, IsPathElement s p := fun ⟨p, hp⟩ => by
      rw [parsePath_eq_some.2 hp] at hpath
      exact absurd hpath (by simp)
    exact ⟨fun h => absurd h.2.1 hp,
      fun _ => ⟨false, rfl, iff_of_false Bool.false_ne_true fun h => hp h.1⟩⟩
  have hp : ∃ p, IsPathElement s p := ⟨p, parsePath_eq_some.1 hpath⟩
  refine ⟨fun h => ⟨_, (registerAll_cases h0ss).1 h.2.2⟩, fun h => ?_⟩
  have hreach : ¬ReachesLoneQuote ss := fun hreach => h ⟨hempty.2, hp, hreach⟩
  refine ⟨_, (registerAll_cases h0ss).2 hreach, ?_⟩
  have hsome : ∀ t, (CoapBroker.parseOption t).isSome = true ↔ ∃ n v, IsAttrElement t n v := by
    intro t
    simp only [Option.isSome_iff_exists, Prod.exists, parseOption_eq_some]
  simp only [List.all_eq_true, hsome]
  exact ⟨fun h => ⟨hp, hempty.2, h⟩, fun h => h.2.2⟩

/-- All accesses are in bounds exactly when the parser does not come to such an element. -/
theorem accesses_in_bounds_iff (str : CStr) :
    (∃ status, parseLinkFormat (text str.bytes []) = .ok status) ↔ ¬Overruns str.bytes := by
  by_cases hover : Overruns str.bytes
  · obtain ⟨e, he⟩ := (parseLinkFormat_text str).1 hover
    exact iff_of_false (fun ⟨_, h⟩ => by cases he.symm.trans h) (not_not.2 hover)
  · obtain ⟨status, h, -⟩ := (parseLinkFormat_text str).2 hover
    exact iff_of_true ⟨status, h⟩ hover

/-- The byte before a segment is read, and the byte before the copy of a value is written. -/
theorem accesses_out_of_bounds :
    parseLinkFormat (text (CStr.lit "<;ct=0").bytes []) = .error (.read (-1)) ∧
      parseLinkFormat (text (CStr.lit "<x>;ct=\"").bytes []) = .error (.write (-1)) :=
  ⟨rfl, rfl⟩

end CoapBroker.Checked
