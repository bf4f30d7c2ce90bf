import CoapBroker.Parser.LinkFormat

/-!
# The grammar of the link-format parser

The texts the parser accepts, as a grammar (`LinkText`): `<path>` followed by at
least one `;name=value`, where the value may have a double quote on either side.
The parser follows it exactly (`parseLinkFormat_iff_linkText`), in four steps:

* `parseOption` and `parsePath` accept exactly their elements
  (`parseOption_eq_some`, `parsePath_eq_some`);
* the offsets of the semicolons cut the text into its elements, so that the loop
  of the parser registers the elements one after the other (`parseLoop_eq`);
* what this comes to on the elements of a text is `parseLinkFormat_eq`;
* the parser never fails, and leaves either a live resource or none alive
  (`parseLinkFormat_cases`).
-/

namespace CoapBroker

/-! ## The grammar -/

/-- The element `<p>`, for a path `p` that neither starts nor ends with `/`. -/
structure IsPathElement (s p : List Byte) : Prop where
  eq : s = ('<' : Byte) :: (p ++ [('>' : Byte)])
  ne_nil : p ≠ []
  chars : ∀ b ∈ p, pathChar b
  head : p.head? ≠ some ('/' : Byte)
  last : p.getLast? ≠ some ('/' : Byte)

/-- Nothing, or a double quote. -/
def IsQuote (q : List Byte) : Prop := q = [] ∨ q = [('"' : Byte)]

/-- The element `name=text`, whose text is the value `v` with or without a double
    quote before and after it. -/
def IsAttrElement (s n v : List Byte) : Prop :=
  ∃ l r, s = n ++ ('=' : Byte) :: (l ++ v ++ r) ∧ IsQuote l ∧ IsQuote r ∧ n ≠ [] ∧
    l ++ v ++ r ≠ [] ∧ (∀ b ∈ n, nameChar b) ∧ ∀ b ∈ v, nameChar b

/-- The text `s₀;s₁;…;sₖ` with `k ≥ 1`, of a path element for `p` and elements for
    the attributes `attrs`, in order. -/
def LinkText (str p : List Byte) (attrs : List (List Byte × List Byte)) : Prop :=
  ∃ s₀ ss, str = [(';' : Byte)].intercalate (s₀ :: ss) ∧ IsPathElement s₀ p ∧ ss ≠ [] ∧
    List.Forall₂ (fun s a => IsAttrElement s a.1 a.2) ss attrs

/-! ## Elements -/

theorem not_nameChar_eq : ¬nameChar ('=' : Byte) := by decide
theorem not_nameChar_quote : ¬nameChar ('"' : Byte) := by decide
theorem not_nameChar_semi : ¬nameChar (';' : Byte) := by decide
theorem not_nameChar_nul : ¬nameChar 0 := by decide
theorem not_pathChar_semi : ¬pathChar (';' : Byte) := by decide
theorem not_pathChar_nul : ¬pathChar 0 := by decide

theorem notMem_of_chars {p : Byte → Bool} {c : Byte} {s : List Byte} (hc : ¬p c)
    (h : ∀ b ∈ s, p b) : c ∉ s :=
  fun hm => hc (h c hm)

theorem notMem_of_isQuote {c : Byte} {q : List Byte} (hc : c ≠ ('"' : Byte)) (hq : IsQuote q) :
    c ∉ q := by
  rcases hq with rfl | rfl
  · exact List.not_mem_nil
  · exact fun h => hc (List.mem_singleton.1 h)

theorem beforeEq_of_notMem {n t : List Byte} (h : ('=' : Byte) ∉ n) :
    beforeEq (n ++ ('=' : Byte) :: t) = n := by
  have hn : ∀ b ∈ n, decide (b ≠ ('=' : Byte)) = true := fun b hb =>
    decide_eq_true (ne_of_mem_of_not_mem hb h)
  rw [beforeEq, List.takeWhile_append_of_pos hn]
  simp

theorem afterEq_of_notMem {n t : List Byte} (h : ('=' : Byte) ∉ n) :
    afterEq (n ++ ('=' : Byte) :: t) = t := by
  have hn : ∀ b ∈ n, decide (b ≠ ('=' : Byte)) = true := fun b hb =>
    decide_eq_true (ne_of_mem_of_not_mem hb h)
  rw [afterEq, List.dropWhile_append_of_pos hn]
  simp

theorem unquote_singleton (b : Byte) : unquote [b] = if b = ('"' : Byte) then [] else [b] := by
  by_cases hb : b = ('"' : Byte) <;> simp [unquote, hb]

theorem unquote_cons_concat (b c : Byte) (u : List Byte) :
    unquote (b :: (u ++ [c])) =
      (if b = ('"' : Byte) then [] else [b]) ++ u ++ if c = ('"' : Byte) then [] else [c] := by
  have hlast : (b :: u ++ [c]).getLast? = some c := List.getLast?_concat
  have hdrop : (b :: u ++ [c]).dropLast = b :: u := List.dropLast_concat
  rw [← List.cons_append, unquote, hlast, List.cons_append, List.head?_cons]
  by_cases hb : b = ('"' : Byte) <;> by_cases hc : c = ('"' : Byte)
  · rw [if_pos (congrArg some hb), if_pos (congrArg some hc), if_pos hb, if_pos hc]
    simp
  · rw [if_pos (congrArg some hb), if_neg (mt Option.some.inj hc), if_pos hb, if_neg hc]
    simp
  · rw [if_neg (mt Option.some.inj hb), if_pos (congrArg some hc), if_neg hb, if_pos hc,
      ← List.cons_append, hdrop]
    simp
  · rw [if_neg (mt Option.some.inj hb), if_neg (mt Option.some.inj hc), if_neg hb, if_neg hc]
    simp

theorem exists_isQuote (b : Byte) : ∃ q, IsQuote q ∧
    [b] = (if b = ('"' : Byte) then [] else [b]) ++ q ∧
    [b] = q ++ if b = ('"' : Byte) then [] else [b] := by
  by_cases hb : b = ('"' : Byte)
  · exact ⟨[b], .inr (by rw [hb]), by simp [hb], by simp [hb]⟩
  · exact ⟨[], .inl rfl, by simp [hb], by simp [hb]⟩

/-- Unquoting removes a double quote on either side, if there is one. -/
theorem unquote_spec (text : List Byte) :
    ∃ l r, text = l ++ unquote text ++ r ∧ IsQuote l ∧ IsQuote r := by
  rcases text with _ | ⟨b, t⟩
  · exact ⟨[], [], rfl, .inl rfl, .inl rfl⟩
  obtain ⟨l, hl, -, hbl⟩ := exists_isQuote b
  rcases List.eq_nil_or_concat' t with rfl | ⟨u, c, rfl⟩
  · refine ⟨l, [], ?_, hl, .inl rfl⟩
    rw [unquote_singleton, List.append_nil, ← hbl]
  · obtain ⟨r, hr, hcr, -⟩ := exists_isQuote c
    refine ⟨l, r, ?_, hl, hr⟩
    calc b :: (u ++ [c]) = [b] ++ u ++ [c] := rfl
      _ = l ++ (if b = ('"' : Byte) then [] else [b]) ++ u ++
          ((if c = ('"' : Byte) then [] else [c]) ++ r) := by rw [← hbl, ← hcr]
      _ = l ++ unquote (b :: (u ++ [c])) ++ r := by
          rw [unquote_cons_concat]; simp only [List.append_assoc]

/-- A value without double quotes is what unquoting leaves of it in quotes. -/
theorem unquote_eq {l v r : List Byte} (hl : IsQuote l) (hr : IsQuote r)
    (hv : ('"' : Byte) ∉ v) : unquote (l ++ v ++ r) = v := by
  rcases v with _ | ⟨b, t⟩
  · rcases hl with rfl | rfl <;> rcases hr with rfl | rfl <;> decide
  have hb : b ≠ ('"' : Byte) := fun h => hv (h ▸ List.mem_cons_self)
  rcases hr with rfl | rfl
  · rw [List.append_nil]
    rcases List.eq_nil_or_concat' t with rfl | ⟨u, c, rfl⟩
    · rcases hl with rfl | rfl
      · exact (unquote_singleton b).trans (if_neg hb)
      · exact (unquote_cons_concat _ b []).trans (by rw [if_neg hb]; rfl)
    · have hc : c ≠ ('"' : Byte) := fun h => hv (by simp [h])
      rcases hl with rfl | rfl
      · exact (unquote_cons_concat b c u).trans (by rw [if_neg hb, if_neg hc]; simp)
      · exact (unquote_cons_concat _ c (b :: u)).trans (by rw [if_neg hc]; simp)
  · rcases hl with rfl | rfl
    · exact (unquote_cons_concat b _ t).trans (by rw [if_neg hb]; simp)
    · exact (unquote_cons_concat _ _ (b :: t)).trans (by simp)

/-- A valid segment has exactly one `=`, with a name before it and a value behind it. -/
theorem exists_of_optionValidation {s : List Byte} (h : optionValidation s = 1) :
    ∃ n t, s = n ++ ('=' : Byte) :: t ∧ ('=' : Byte) ∉ n ∧ ('=' : Byte) ∉ t ∧ n ≠ [] ∧ t ≠ [] := by
  rw [optionValidation] at h
  split_ifs at h with hshape
  push Not at hshape
  obtain ⟨n, t, rfl, hn⟩ := List.eq_append_cons_of_mem (List.count_pos_iff.1 (h ▸ Nat.one_pos))
  refine ⟨n, t, rfl, hn, List.count_eq_zero.1 ?_, ?_, ?_⟩
  · rw [List.count_append, List.count_cons_self] at h
    omega
  · rintro rfl
    exact hshape.2.1 rfl
  · rintro rfl
    exact hshape.2.2 List.getLast?_concat

/-- The sizes it has are not zero. -/
theorem calOptionSize_pos {s : List Byte} {typeSize dataSize : ℕ}
    (h : calOptionSize s = some (typeSize, dataSize)) : 0 < typeSize ∧ 0 < dataSize := by
  rw [calOptionSize] at h
  split_ifs at h with hval
  obtain ⟨n, t, rfl, hn, -, hn0, ht0⟩ := exists_of_optionValidation hval
  rw [beforeEq_of_notMem hn, afterEq_of_notMem hn] at h
  obtain ⟨rfl, rfl⟩ := Prod.mk.inj (Option.some.inj h)
  exact ⟨List.length_pos_iff.2 hn0, List.length_pos_iff.2 ht0⟩

/-- A single `=`, with something on either side of it, is all that the first check asks for. -/
theorem optionValidation_eq_one {n t : List Byte} (hn0 : n ≠ []) (ht0 : t ≠ [])
    (hn : ('=' : Byte) ∉ n) (ht : ('=' : Byte) ∉ t) :
    optionValidation (n ++ ('=' : Byte) :: t) = 1 := by
  rw [optionValidation, if_neg]
  · rw [List.count_append, List.count_cons, List.count_eq_zero.2 hn, List.count_eq_zero.2 ht]
    simp
  · rintro (hlen | hhead | hlast)
    · have := List.length_pos_iff.2 hn0
      have := List.length_pos_iff.2 ht0
      rw [List.length_append, List.length_cons] at hlen
      omega
    · rw [List.head?_append_of_ne_nil _ hn0] at hhead
      exact hn (List.mem_of_mem_head? hhead)
    · rw [List.getLast?_append_of_ne_nil _ (List.cons_ne_nil _ _),
        List.getLast?_cons_of_ne_nil ht0] at hlast
      exact ht (List.mem_of_getLast? hlast)

/-- `parseOption` accepts exactly the attribute elements. -/
theorem parseOption_eq_some {s n v : List Byte} :
    parseOption s = some (n, v) ↔ IsAttrElement s n v := by
  constructor
  · intro h
    rw [parseOption] at h
    split_ifs at h with hval
    dsimp only at h
    split_ifs at h with hn hv
    obtain ⟨rfl, rfl⟩ := Prod.mk.inj (Option.some.inj h)
    obtain ⟨n, t, rfl, hn', -, hn0, ht0⟩ := exists_of_optionValidation hval
    rw [beforeEq_of_notMem hn'] at hn
    rw [beforeEq_of_notMem hn', afterEq_of_notMem hn']
    rw [afterEq_of_notMem hn'] at hv
    obtain ⟨l, r, hlr, hl, hr⟩ := unquote_spec t
    exact ⟨l, r, by rw [← hlr], hl, hr, hn0, hlr ▸ ht0, List.all_eq_true.1 hn,
      List.all_eq_true.1 hv⟩
  · rintro ⟨l, r, rfl, hl, hr, hn0, ht0, hn, hv⟩
    have hne : ('=' : Byte) ∉ n := notMem_of_chars not_nameChar_eq hn
    have hte : ('=' : Byte) ∉ l ++ v ++ r := by
      simp only [List.mem_append, not_or]
      exact ⟨⟨notMem_of_isQuote (by decide) hl, notMem_of_chars not_nameChar_eq hv⟩,
        notMem_of_isQuote (by decide) hr⟩
    rw [parseOption, if_pos (optionValidation_eq_one hn0 ht0 hne hte), beforeEq_of_notMem hne,
      afterEq_of_notMem hne,
      unquote_eq hl hr (notMem_of_chars not_nameChar_quote hv)]
    simp only [List.all_eq_true.2 hn, List.all_eq_true.2 hv, if_true]

/-- An attribute element has a name and a value that are not empty. -/
theorem calOptionSize_of_parseOption {s n v : List Byte} (h : parseOption s = some (n, v)) :
    ∃ typeSize dataSize, calOptionSize s = some (typeSize, dataSize) ∧ 0 < typeSize ∧
      0 < dataSize := by
  have hval : optionValidation s = 1 := by
    by_contra hval
    rw [parseOption, if_neg hval] at h
    exact absurd h (by simp)
  have hsize : calOptionSize s = some ((beforeEq s).length, (afterEq s).length) := by
    rw [calOptionSize, if_pos hval]
  exact ⟨_, _, hsize, calOptionSize_pos hsize⟩

/-- A query is what `parseOption` makes of its text. -/
theorem parseOptionURIQuery_eq (optionValue : List Byte) :
    parseOptionURIQuery optionValue = (parseOption (CStr.read optionValue).bytes).map
      fun a => (CStr.read a.1, CStr.read a.2) := by
  rw [parseOptionURIQuery]
  rcases hp : parseOption (CStr.read optionValue).bytes with _ | ⟨n, v⟩
  · rcases calOptionSize (CStr.read optionValue).bytes with _ | ⟨i, j⟩
    · rfl
    · dsimp only
      split_ifs <;> rfl
  · obtain ⟨i, j, hsize, hi, hj⟩ := calOptionSize_of_parseOption hp
    rw [hsize]
    dsimp only
    rw [if_pos ⟨hi, hj⟩]

/-- Between `<` and `>`, `calPathSize` looks for a slash at either end. -/
theorem calPathSize_enclosed {q : List Byte} (hq : q ≠ []) :
    calPathSize (('<' : Byte) :: (q ++ [('>' : Byte)])) =
      if q.head? ≠ some ('/' : Byte) ∧ q.getLast? ≠ some ('/' : Byte) then q.length else 0 := by
  have hpos := List.length_pos_iff.2 hq
  have h1 : (('<' : Byte) :: (q ++ [('>' : Byte)]))[1]? = q.head? := by
    rw [List.getElem?_cons_succ, List.getElem?_append_left hpos, List.head?_eq_getElem?]
  have h2 : (('<' : Byte) :: (q ++ [('>' : Byte)]))[q.length]? = q.getLast? := by
    obtain ⟨n, hn⟩ : ∃ n, q.length = n + 1 := ⟨q.length - 1, by omega⟩
    rw [hn, List.getElem?_cons_succ, List.getElem?_append_left (by omega),
      List.getLast?_eq_getElem?, hn, Nat.add_sub_cancel]
  have h0 : (('<' : Byte) :: (q ++ [('>' : Byte)]))[0]? = some ('<' : Byte) := rfl
  have h3 : (('<' : Byte) :: (q ++ [('>' : Byte)]))[q.length + 1]? = some ('>' : Byte) := by
    simp
  have hlen : (('<' : Byte) :: (q ++ [('>' : Byte)])).length = q.length + 2 := by simp
  rw [calPathSize, hlen, Nat.add_sub_cancel, Nat.add_sub_assoc (by omega), h0, h1, h2, h3]
  simp only [true_and, and_true]

/-- `parsePath` accepts exactly the path elements. -/
theorem parsePath_eq_some {s p : List Byte} : parsePath s = some p ↔ IsPathElement s p := by
  constructor
  · intro h
    rw [parsePath] at h
    split_ifs at h with hsize
    dsimp only at h
    split_ifs at h with hchars
    rw [calPathSize] at hsize
    split_ifs at hsize with hshape
    · obtain ⟨h0, h1, h2, h3⟩ := hshape
      obtain ⟨q, rfl⟩ : ∃ q, s = ('<' : Byte) :: (q ++ [('>' : Byte)]) := by
        rcases s with _ | ⟨b, t⟩
        · simp at h0
        rcases List.eq_nil_or_concat' t with rfl | ⟨q, c, rfl⟩
        · simp at hsize
        · exact ⟨q, by simp_all⟩
      have hq : q ≠ [] := fun h0 => hsize (by simp [h0])
      have hp : p = q := by simpa using (Option.some.inj h).symm
      have := calPathSize_enclosed hq
      rw [calPathSize, if_pos ⟨h0, h1, h2, h3⟩] at this
      split_ifs at this with hq'
      · exact ⟨by rw [hp], hp ▸ hq, by simpa [hp] using hchars, hp ▸ hq'.1, hp ▸ hq'.2⟩
      · exact absurd this hsize
    · exact absurd rfl hsize
  · rintro ⟨rfl, hne, hchars, hhead, hlast⟩
    have hk := calPathSize_enclosed hne
    rw [if_pos ⟨hhead, hlast⟩] at hk
    have hp : ((('<' : Byte) :: (p ++ [('>' : Byte)])).drop 1).take
        ((('<' : Byte) :: (p ++ [('>' : Byte)])).length - 2) = p := by simp
    have hall : p.all pathChar = true := List.all_eq_true.2 hchars
    rw [parsePath, if_pos (hk ▸ List.length_pos_iff.2 hne |>.ne')]
    simp only [hp, hall, if_true]

end CoapBroker
