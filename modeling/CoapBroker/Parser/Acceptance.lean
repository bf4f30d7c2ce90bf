import CoapBroker.Parser.Grammar

/-!
# What the link-format parser accepts

The parser follows the grammar exactly (`parseLinkFormat_iff_linkText`). The
offsets of the semicolons cut the text into its elements, so that the loop of the
parser comes to registering the elements one after the other (`parseLoop_eq`).
The path is registered by the first element only, and so no resource is ever
overwritten. From this, `parseLinkFormat_cases` says what is left after the parser:
it never fails, and gives a live resource, or none that is alive.
-/

namespace CoapBroker

/-! ## Offsets -/

theorem offsets_of_notMem {c : Byte} {s : List Byte} (h : c ∉ s) : offsets c s = [] := by
  induction s with
  | nil => rfl
  | cons b s ih =>
    rw [List.mem_cons, not_or] at h
    rw [offsets, if_neg (Ne.symm h.1), ih h.2, List.map_nil]

theorem offsets_append_cons {c : Byte} {s : List Byte} (h : c ∉ s) (t : List Byte) :
    offsets c (s ++ c :: t) = s.length :: (offsets c t).map (· + (s.length + 1)) := by
  induction s with
  | nil => rw [List.nil_append, offsets, if_pos rfl]; rfl
  | cons b s ih =>
    rw [List.mem_cons, not_or] at h
    rw [List.cons_append, offsets, if_neg (Ne.symm h.1), ih h.2, List.map_cons, List.map_map,
      List.length_cons]
    congr 1

/-! ## Registering elements -/

/-- The resource with the given attributes added one after the other. -/
def CoapResource.withAttrs (r : CoapResource) (attrs : List (List Byte × List Byte)) :
    CoapResource :=
  attrs.foldl (fun r a => r.addAttr (CStr.read a.1) (CStr.read a.2)
    (coapAttrFlagsReleaseName ||| coapAttrFlagsReleaseValue)) r

/-- Adding the attributes of elements one after the other, up to the first that has
    none. -/
def registerAll : NewResource → List (List Byte) → Except Fault (NewResource × Bool)
  | resource, [] => .ok (resource, true)
  | resource, s :: ss =>
    match optionOrFree resource s with
    | .ok (resource, true) => registerAll resource ss
    | .ok (resource, false) => .ok (resource, false)
    | .error f => .error f

theorem CoapResource.linkAttr_withAttrs (r : CoapResource)
    (attrs : List (List Byte × List Byte)) :
    (r.withAttrs attrs).linkAttr = (attrs.map fun a => ⟨CStr.read a.1, CStr.read a.2,
      coapAttrFlagsReleaseName ||| coapAttrFlagsReleaseValue⟩).reverse ++ r.linkAttr := by
  induction attrs generalizing r with
  | nil => rfl
  | cons a attrs ih =>
    rw [withAttrs, List.foldl_cons, ← withAttrs, ih, List.map_cons, List.reverse_cons,
      List.append_assoc]
    rfl

/-- Adding attributes changes nothing else. -/
theorem CoapResource.withAttrs_eq (r : CoapResource) (attrs : List (List Byte × List Byte)) :
    r.withAttrs attrs = { r with linkAttr := (r.withAttrs attrs).linkAttr } := by
  induction attrs generalizing r with
  | nil => rfl
  | cons a attrs ih => exact ih (r.addAttr _ _ _)

theorem registerAll_singleton (resource : NewResource) (s : List Byte) :
    registerAll resource [s] = optionOrFree resource s := by
  rw [registerAll]
  rcases optionOrFree resource s with f | ⟨r, _ | _⟩ <;> rfl

theorem optionRegister_live (r : CoapResource) (s : List Byte) :
    optionRegister (.live r) s =
      match parseOption s with
      | some a => .ok (.live (r.withAttrs [a]), true)
      | none => .ok (.live r, false) := by
  rcases hp : parseOption s with _ | ⟨n, v⟩
  · rw [optionRegister, hp]
    rcases calOptionSize s with _ | ⟨i, j⟩
    · rfl
    · dsimp only; split_ifs <;> rfl
  · obtain ⟨i, j, hsize, hi, hj⟩ := calOptionSize_of_parseOption hp
    rw [optionRegister, hsize, hp]
    dsimp only
    rw [if_pos ⟨hi, hj⟩]
    rfl

theorem optionOrFree_live (r : CoapResource) (s : List Byte) :
    optionOrFree (.live r) s =
      match parseOption s with
      | some a => .ok (.live (r.withAttrs [a]), true)
      | none => .ok (.freed r, false) := by
  rw [optionOrFree, optionRegister_live]
  rcases parseOption s with _ | a <;> rfl

/-- Registering elements in a live resource adds all of their attributes, or frees it. -/
theorem registerAll_live (r : CoapResource) (ss : List (List Byte)) :
    (∃ attrs, List.Forall₂ (fun s a => parseOption s = some a) ss attrs ∧
      registerAll (.live r) ss = .ok (.live (r.withAttrs attrs), true)) ∨
    (∃ s ∈ ss, parseOption s = none) ∧
      ∃ attrs, registerAll (.live r) ss = .ok (.freed (r.withAttrs attrs), false) := by
  induction ss generalizing r with
  | nil => exact .inl ⟨[], .nil, rfl⟩
  | cons s ss ih =>
    rw [registerAll, optionOrFree_live]
    rcases hp : parseOption s with _ | a
    · exact .inr ⟨⟨s, List.mem_cons_self, hp⟩, [], rfl⟩
    · rcases ih (r.withAttrs [a]) with ⟨attrs, hattrs, hr⟩ | ⟨⟨s', hs', hp'⟩, attrs, hr⟩
      · exact .inl ⟨a :: attrs, .cons hp hattrs, hr⟩
      · exact .inr ⟨⟨s', List.mem_cons_of_mem s hs', hp'⟩, a :: attrs, hr⟩

/-- The resource a path element creates below `old`. -/
def resourceAt (old : CoapResource) (p : List Byte) : CoapResource :=
  coapResourceInit (CStr.read (old.uri.bytes ++ ('/' : Byte) :: p)) coapResourceFlagsReleaseUri

theorem pathRegister_eq (old : CoapResource) (resource : NewResource) (s : List Byte) :
    pathRegister old resource s =
      match parsePath s with
      | some p => (.live (resourceAt old p), true)
      | none => (resource, false) := by
  rw [pathRegister]
  split_ifs with h
  · rfl
  · rw [parsePath, if_neg (by omega)]

/-! ## The loop -/

/-- Past the first element, the loop registers the ones ahead, at least two. -/
theorem parseLoop_eq (str : List Byte) (old : CoapResource) (ss : List (List Byte)) :
    ∀ (last : ℕ) (s : List Byte) (resource : NewResource) (status : Bool), ss ≠ [] →
      (∀ t ∈ s :: ss, (';' : Byte) ∉ t) →
      str.drop last = (';' : Byte) :: [(';' : Byte)].intercalate (s :: ss) →
      parseLoop str old last
          ((offsets ';' ([(';' : Byte)].intercalate (s :: ss))).map (· + (last + 1))) resource status =
        registerAll resource (s :: ss) := by
  induction ss with
  | nil => exact fun _ _ _ _ h => absurd rfl h
  | cons t ss ih =>
    intro last s resource status _ hsemi hstr
    have hs : (';' : Byte) ∉ s := hsemi s List.mem_cons_self
    have hsemi' : ∀ u ∈ t :: ss, (';' : Byte) ∉ u := fun u hu => hsemi u (List.mem_cons_of_mem s hu)
    rw [intercalate_cons_cons] at hstr ⊢
    have hat : str[last]? = some (';' : Byte) := by
      rw [← Nat.add_zero last, ← List.getElem?_drop, hstr]; rfl
    have hdrop : str.drop (last + 1) = s ++ (';' : Byte) :: [(';' : Byte)].intercalate (t :: ss) := by
      rw [← List.tail_drop, hstr]; rfl
    have hdrop' : str.drop (s.length + (last + 1)) =
        (';' : Byte) :: [(';' : Byte)].intercalate (t :: ss) := by
      rw [Nat.add_comm, ← List.drop_drop, hdrop, List.drop_left]
    have helement : (str.drop (last + 1)).take (s.length + (last + 1) - last - 1) = s := by
      rw [hdrop, show s.length + (last + 1) - last - 1 = s.length by omega, List.take_left]
    have hmap : ((fun i => i + (last + 1)) ∘ fun i => i + (s.length + 1)) =
        fun i => i + (s.length + (last + 1) + 1) := by
      funext i; dsimp only [Function.comp_apply]; omega
    rw [offsets_append_cons hs, List.map_cons, List.map_map, hmap, parseLoop,
      if_neg (not_not.2 hat), helement, registerAll]
    rcases optionOrFree resource s with f | ⟨r, _ | _⟩
    · rfl
    · rfl
    · dsimp only
      rcases ss with _ | ⟨u, ss⟩
      · have ht : str.drop (s.length + (last + 1) + 1) = t := by
          rw [← List.tail_drop, hdrop', List.intercalate_singleton]; rfl
        rw [List.intercalate_singleton, offsets_of_notMem (hsemi' t List.mem_cons_self),
          List.map_nil, ht,
          registerAll_singleton]
      · have := ih (s.length + (last + 1)) t r true (List.cons_ne_nil u ss) hsemi' hdrop'
        rw [← this, intercalate_cons_cons, offsets_append_cons (hsemi' t List.mem_cons_self)]
        rfl

/-- The parser registers the path of the first element, then the attributes of the
    other ones. -/
theorem parseLoop_intercalate (old : CoapResource) {s : List Byte} {ss : List (List Byte)}
    (hss : ss ≠ []) (hsemi : ∀ t ∈ s :: ss, (';' : Byte) ∉ t) (hs : s ≠ []) :
    parseLoop ([(';' : Byte)].intercalate (s :: ss)) old 0
        (offsets ';' ([(';' : Byte)].intercalate (s :: ss))) .null false =
      match parsePath s with
      | some p => registerAll (.live (resourceAt old p)) ss
      | none => .ok (.null, false) := by
  obtain ⟨t, ss, rfl⟩ := List.exists_cons_of_ne_nil hss
  have hs' : (';' : Byte) ∉ s := hsemi s List.mem_cons_self
  have hsemi' : ∀ u ∈ t :: ss, (';' : Byte) ∉ u := fun u hu => hsemi u (List.mem_cons_of_mem s hu)
  have hat : ([(';' : Byte)].intercalate (s :: t :: ss))[0]? ≠ some (';' : Byte) := by
    rw [intercalate_cons_cons, List.getElem?_append_left (List.length_pos_iff.2 hs)]
    exact fun h => hs' (List.mem_of_getElem? h)
  have hdrop : ([(';' : Byte)].intercalate (s :: t :: ss)).drop s.length =
      (';' : Byte) :: [(';' : Byte)].intercalate (t :: ss) := by
    rw [intercalate_cons_cons, List.drop_left]
  have hoff := offsets_append_cons hs' ([(';' : Byte)].intercalate (t :: ss))
  rw [← intercalate_cons_cons] at hoff
  rw [hoff, parseLoop, if_pos hat, List.drop_zero, Nat.sub_zero, intercalate_cons_cons,
    List.take_left, ← intercalate_cons_cons, pathRegister_eq]
  rcases parsePath s with _ | p
  · rfl
  · dsimp only
    rcases ss with _ | ⟨u, ss⟩
    · have ht : ([(';' : Byte)].intercalate [s, t]).drop (s.length + 1) = t := by
        rw [← List.tail_drop, hdrop, List.intercalate_singleton]; rfl
      rw [List.intercalate_singleton, offsets_of_notMem (hsemi' t List.mem_cons_self),
        List.map_nil, ht,
        registerAll_singleton]
    · have := parseLoop_eq _ old (u :: ss) s.length t (.live (resourceAt old p)) true
        (List.cons_ne_nil u ss) hsemi' hdrop
      rw [← this, intercalate_cons_cons _ t, offsets_append_cons (hsemi' t List.mem_cons_self)]
      rfl

/-! ## The parser -/

theorem IsPathElement.notMem {c : Byte} {s p : List Byte} (h : IsPathElement s p)
    (hl : c ≠ ('<' : Byte)) (hg : c ≠ ('>' : Byte)) (hc : ¬pathChar c) : c ∉ s := by
  rw [h.eq]
  simp only [List.mem_cons, List.mem_append, not_or, List.not_mem_nil, not_false_iff, and_true]
  exact ⟨hl, notMem_of_chars hc h.chars, hg⟩

theorem IsAttrElement.notMem {c : Byte} {s n v : List Byte} (h : IsAttrElement s n v)
    (he : c ≠ ('=' : Byte)) (hq : c ≠ ('"' : Byte)) (hc : ¬nameChar c) : c ∉ s := by
  obtain ⟨l, r, rfl, hl, hr, -, -, hn, hv⟩ := h
  simp only [List.mem_append, List.mem_cons, not_or]
  exact ⟨notMem_of_chars hc hn, he, ⟨notMem_of_isQuote hq hl, notMem_of_chars hc hv⟩,
    notMem_of_isQuote hq hr⟩

theorem forall₂_notMem {c : Byte} {ss : List (List Byte)} {attrs : List (List Byte × List Byte)}
    (h : List.Forall₂ (fun s a => IsAttrElement s a.1 a.2) ss attrs)
    (he : c ≠ ('=' : Byte)) (hq : c ≠ ('"' : Byte)) (hc : ¬nameChar c) : ∀ s ∈ ss, c ∉ s := by
  intro s hs
  obtain ⟨a, -, ha⟩ := exists_of_mem_forall₂ h hs
  exact ha.notMem he hq hc

/-- The elements of a text of the grammar are the pieces between its semicolons. -/
theorem LinkText.elements {s : List Byte} {ss : List (List Byte)} {p : List Byte}
    {attrs : List (List Byte × List Byte)} (hsemi : ∀ t ∈ s :: ss, (';' : Byte) ∉ t)
    (h : LinkText ([(';' : Byte)].intercalate (s :: ss)) p attrs) :
    IsPathElement s p ∧ ss ≠ [] ∧ List.Forall₂ (fun s a => IsAttrElement s a.1 a.2) ss attrs := by
  obtain ⟨s', ss', heq, hp, hne, hattrs⟩ := h
  have hsemi' : ∀ t ∈ s' :: ss', (';' : Byte) ∉ t := by
    rintro t (_ | ⟨_, ht⟩)
    · exact hp.notMem (by decide) (by decide) not_pathChar_semi
    · exact forall₂_notMem hattrs (by decide) (by decide) not_nameChar_semi t ht
  obtain ⟨rfl, rfl⟩ := eq_of_intercalate_eq hsemi hsemi' heq
  exact ⟨hp, hne, hattrs⟩

theorem LinkText.comma_notMem {str p : List Byte} {attrs : List (List Byte × List Byte)}
    (h : LinkText str p attrs) : (',' : Byte) ∉ str := by
  obtain ⟨s, ss, rfl, hp, -, hattrs⟩ := h
  refine notMem_intercalate (by decide) ?_
  rintro t (_ | ⟨_, ht⟩)
  · exact hp.notMem (by decide) (by decide) (by decide)
  · exact forall₂_notMem hattrs (by decide) (by decide) (by decide) t ht

/-- A text determines the path and the attributes. -/
theorem LinkText.unique {str p p' : List Byte} {attrs attrs' : List (List Byte × List Byte)}
    (h : LinkText str p attrs) (h' : LinkText str p' attrs') : p = p' ∧ attrs = attrs' := by
  obtain ⟨s, ss, hstr, hsemi⟩ := exists_pieces ';' str
  rw [hstr] at h h'
  obtain ⟨hp, -, hattrs⟩ := h.elements hsemi
  obtain ⟨hp', -, hattrs'⟩ := h'.elements hsemi
  constructor
  · exact Option.some.inj ((parsePath_eq_some.2 hp).symm.trans (parsePath_eq_some.2 hp'))
  · refine List.right_unique_forall₂' (fun s a b ha hb => ?_) hattrs hattrs'
    exact Option.some.inj ((parseOption_eq_some.2 ha).symm.trans (parseOption_eq_some.2 hb))

/-- What the parser leaves: a live resource with the path and the attributes of the
    text, or, when the text is not of the grammar, no resource or a freed one. -/
theorem parseLinkFormat_cases (str : CStr) (old : CoapResource) :
    (∃ p attrs, LinkText str.bytes p attrs ∧
      parseLinkFormat str old = .ok (.live ((resourceAt old p).withAttrs attrs), true)) ∨
    (¬∃ p attrs, LinkText str.bytes p attrs) ∧
      (parseLinkFormat str old = .ok (.null, false) ∨
        ∃ p attrs, parseLinkFormat str old =
          .ok (.freed ((resourceAt old p).withAttrs attrs), false)) := by
  rw [parseLinkFormat]
  by_cases hcomma : (',' : Byte) ∈ str.bytes
  · rw [if_pos hcomma]
    exact .inr ⟨fun ⟨p, attrs, h⟩ => h.comma_notMem hcomma, .inl rfl⟩
  rw [if_neg hcomma]
  obtain ⟨s, ss, hstr, hsemi⟩ := exists_pieces ';' str.bytes
  rw [hstr]
  rcases eq_or_ne ss [] with rfl | hss
  · -- without a semicolon, the loop is not entered
    refine .inr ⟨fun ⟨p, attrs, h⟩ => (h.elements hsemi).2.1 rfl, .inl ?_⟩
    rw [List.intercalate_singleton, offsets_of_notMem (hsemi s List.mem_cons_self)]
    split_ifs <;> rfl
  rcases eq_or_ne s [] with rfl | hs
  · refine .inr ⟨fun ⟨p, attrs, h⟩ => ?_, .inl ?_⟩
    · exact List.cons_ne_nil _ _ (h.elements hsemi).1.eq.symm
    · obtain ⟨t, ss, rfl⟩ := List.exists_cons_of_ne_nil hss
      rw [intercalate_cons_cons]
      rfl
  have hhead : ([(';' : Byte)].intercalate (s :: ss)).head? ≠ some (';' : Byte) := by
    obtain ⟨t, ss, rfl⟩ := List.exists_cons_of_ne_nil hss
    rw [intercalate_cons_cons, List.head?_append_of_ne_nil _ hs]
    exact fun h => hsemi s List.mem_cons_self (List.mem_of_mem_head? h)
  rw [if_neg hhead, parseLoop_intercalate old hss hsemi hs]
  rcases hp : parsePath s with _ | p
  · refine .inr ⟨fun ⟨p, attrs, h⟩ => ?_, .inl rfl⟩
    rw [parsePath_eq_some.2 (h.elements hsemi).1] at hp
    exact absurd hp (by simp)
  rcases registerAll_live (resourceAt old p) ss with
    ⟨attrs, hattrs, hr⟩ | ⟨⟨t, ht, hnone⟩, attrs, hr⟩
  · refine .inl ⟨p, attrs, ⟨s, ss, rfl, parsePath_eq_some.1 hp, hss, ?_⟩, hr⟩
    exact hattrs.imp fun _ _ h => parseOption_eq_some.1 h
  · refine .inr ⟨fun ⟨p', attrs', h⟩ => ?_, .inr ⟨p, attrs, hr⟩⟩
    obtain ⟨a, -, ha⟩ := exists_of_mem_forall₂ (h.elements hsemi).2.2 ht
    rw [parseOption_eq_some.2 ha] at hnone
    exact absurd hnone (by simp)

/-- A text of the grammar is accepted, and gives the resource of its path and attributes. -/
theorem LinkText.parseLinkFormat_eq {str : CStr} {p : List Byte}
    {attrs : List (List Byte × List Byte)} (h : LinkText str.bytes p attrs) (old : CoapResource) :
    parseLinkFormat str old = .ok (.live ((resourceAt old p).withAttrs attrs), true) := by
  rcases parseLinkFormat_cases str old with ⟨p', attrs', h', heq⟩ | ⟨hno, -⟩
  · obtain ⟨rfl, rfl⟩ := h.unique h'
    exact heq
  · exact absurd ⟨p, attrs, h⟩ hno

theorem IsPathElement.uri_resourceAt {s p : List Byte} (h : IsPathElement s p)
    (old : CoapResource) : (resourceAt old p).uri.bytes = old.uri.bytes ++ ('/' : Byte) :: p := by
  refine CStr.read_of_notMem fun hm => ?_
  rcases List.mem_append.1 hm with hm | hm
  · exact old.uri.nul_free hm
  · rcases List.mem_cons.1 hm with h0 | hm
    · exact absurd h0 (by decide)
    · exact notMem_of_chars not_pathChar_nul h.chars hm

theorem IsAttrElement.read_eq {s n v : List Byte} (h : IsAttrElement s n v) :
    ((CStr.read n).bytes, (CStr.read v).bytes) = (n, v) := by
  obtain ⟨l, r, -, -, -, -, -, hn, hv⟩ := h
  rw [CStr.read_of_notMem (notMem_of_chars not_nameChar_nul hn),
    CStr.read_of_notMem (notMem_of_chars not_nameChar_nul hv)]

/-- The parser accepts exactly the texts of the grammar. The new resource is below
    `old` and has exactly the attributes of the text, the last one first; when the text
    is rejected, no resource stays alive. -/
theorem parseLinkFormat_iff_linkText (str : CStr) (old : CoapResource) :
    ∃ resource status, parseLinkFormat str old = .ok (resource, status) ∧
      (status = true ↔ ∃ p attrs, LinkText str.bytes p attrs) ∧
      (∀ p attrs, LinkText str.bytes p attrs → ∃ r, resource = .live r ∧
        r.uri.bytes = old.uri.bytes ++ ('/' : Byte) :: p ∧
        r.linkAttr.map (fun a => (a.name.bytes, a.value.bytes)) = attrs.reverse) ∧
      (status = false → resource = .null ∨ ∃ r, resource = .freed r) := by
  rcases parseLinkFormat_cases str old with ⟨p, attrs, h, heq⟩ | ⟨hno, heq | ⟨p, attrs, heq⟩⟩
  · refine ⟨_, _, heq, iff_of_true rfl ⟨p, attrs, h⟩, fun p' attrs' h' => ⟨_, rfl, ?_⟩,
      fun h => absurd h (by simp)⟩
    obtain ⟨rfl, rfl⟩ := h.unique h'
    obtain ⟨s, ss, -, hp, -, hattrs⟩ := h
    refine ⟨?_, ?_⟩
    · rw [CoapResource.withAttrs_eq]
      exact hp.uri_resourceAt old
    · rw [CoapResource.linkAttr_withAttrs, show (resourceAt old p).linkAttr = [] from rfl,
        List.append_nil, List.map_reverse, List.map_map]
      refine congrArg List.reverse ((List.map_congr_left fun a ha => ?_).trans (List.map_id attrs))
      obtain ⟨t, -, ht⟩ := exists_of_mem_forall₂ hattrs.flip ha
      exact IsAttrElement.read_eq ht
  · exact ⟨_, _, heq, iff_of_false Bool.false_ne_true hno, fun p attrs h => absurd ⟨p, attrs, h⟩ hno,
      fun _ => .inl rfl⟩
  · exact ⟨_, _, heq, iff_of_false Bool.false_ne_true hno,
      fun p' attrs' h => absurd ⟨p', attrs', h⟩ hno, fun _ => .inr ⟨_, rfl⟩⟩

end CoapBroker
