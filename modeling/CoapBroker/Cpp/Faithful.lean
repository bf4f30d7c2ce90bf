import CoapBroker.Cpp.Effect

/-!
# Parsing link format loses nothing

The object made of an accepted text gives back the text without its double quotes
(`LinkFormat.joined`): the characters the text is split at, and the double quotes, are in none of
its parts. The object made of any other text is empty, and the handler takes the request for
malformed (`linkFormat_faithful`).
-/

namespace CoapBroker.Cpp

/-- The text of a path and of attributes, without double quotes. -/
def LinkFormat.joined (lf : LinkFormat) : List Byte :=
  ('<' : Byte) :: (lf.path.bytes ++ ('>' : Byte) :: lf.attributeList.flatMap fun a =>
    (';' : Byte) :: (a.name.bytes ++ ('=' : Byte) :: a.value.bytes))

/-- An object has what a text says, but for the double quotes. -/
structure LinkFormat.Faithful (text : CStr) (lf : LinkFormat) : Prop where
  joined_eq : lf.joined = text.bytes.filter (· ≠ ('"' : Byte))
  path : IsPath lf.path.bytes
  attributes_ne : lf.attributeList ≠ []
  attributes : ∀ a ∈ lf.attributeList, a.name ≠ CStr.empty ∧ a.value ≠ CStr.empty

theorem filter_quote {s : List Byte} (h : ('"' : Byte) ∉ s) : s.filter (· ≠ ('"' : Byte)) = s :=
  List.filter_eq_self.2 fun _ hc => decide_eq_true (ne_of_mem_of_not_mem hc h)

/-- Only the value of an attribute has double quotes. -/
theorem IsAttr.filter_quote {s : List Byte} {a : List Byte × List Byte} (h : IsAttr s a) :
    s.filter (· ≠ ('"' : Byte)) = a.1 ++ ('=' : Byte) :: a.2 := by
  obtain ⟨⟨-, hn⟩, ⟨-, hv⟩, hs⟩ := h
  have hname := Cpp.filter_quote (notMem_lfChars hn (by decide : ('"' : Byte) ∉ lfChars))
  have hvalue := Cpp.filter_quote (notMem_lfChars hv (by decide : ('"' : Byte) ∉ lfChars))
  rcases hs with rfl | rfl
  · rw [List.filter_append, List.filter_cons_of_pos (by decide), hname, hvalue]
  · rw [List.filter_append, List.filter_cons_of_pos (by decide),
      List.filter_cons_of_neg (by decide), List.filter_append, List.filter_cons_of_neg (by decide),
      List.filter_nil, List.append_nil, hname, hvalue]

theorem filter_quote_attrs {ss : List (List Byte)} {attrs : List (List Byte × List Byte)}
    (h : List.Forall₂ IsAttr ss attrs) :
    (ss.map (List.cons (';' : Byte))).flatten.filter (· ≠ ('"' : Byte)) =
      attrs.flatMap fun a => (';' : Byte) :: (a.1 ++ ('=' : Byte) :: a.2) := by
  induction h with
  | nil => rfl
  | cons ha _ ih =>
    rw [List.map_cons, List.flatten_cons, List.cons_append, List.filter_cons_of_pos (by decide),
      List.filter_append, ha.filter_quote, ih, List.flatMap_cons, List.cons_append]

/-- The parts of an accepted text are strings. -/
theorem IsAttr.bytes_read {s : List Byte} {a : List Byte × List Byte} (h : IsAttr s a) :
    (CStr.read a.1).bytes = a.1 ∧ (CStr.read a.2).bytes = a.2 :=
  ⟨CStr.read_of_notMem (notMem_lfChars h.1.2 (by decide)),
    CStr.read_of_notMem (notMem_lfChars h.2.1.2 (by decide))⟩

theorem LinkText.faithful {text : CStr} {p : List Byte} {attrs : List (List Byte × List Byte)}
    (h : LinkText text.bytes p attrs) (flags : ℕ) :
    LinkFormat.Faithful text {
      rawData := text
      path := CStr.read p
      attributeList := attrs.map fun a => ⟨CStr.read a.1, CStr.read a.2, flags⟩ } := by
  obtain ⟨ss, hne, hp, hss, htext⟩ := h
  have hpath : (CStr.read p).bytes = p := CStr.read_of_notMem (hp.notMem (by decide))
  have hattrs : ∀ a ∈ attrs, ∃ s, IsAttr s a := fun a ha => by
    obtain ⟨s, -, hs⟩ := exists_of_mem_forall₂ hss.flip ha
    exact ⟨s, hs⟩
  refine ⟨?_, ?_, ?_, ?_⟩
  -- leaving out the quotes gives the joined path and attributes
  · have hquote : ('"' : Byte) ∉ p := hp.notMem (by decide)
    have hlist : (attrs.flatMap fun a => (';' : Byte) :: ((CStr.read a.1).bytes ++
        ('=' : Byte) :: (CStr.read a.2).bytes)) =
        attrs.flatMap fun a => (';' : Byte) :: (a.1 ++ ('=' : Byte) :: a.2) := by
      refine List.flatMap_congr fun a ha => ?_
      obtain ⟨s, hs⟩ := hattrs a ha
      rw [hs.bytes_read.1, hs.bytes_read.2]
    rw [htext, intercalate_cons_eq, List.filter_append, filter_quote_attrs hss,
      List.filter_cons_of_pos (by decide), List.filter_append, filter_quote hquote,
      List.filter_cons_of_pos (by decide), List.filter_nil]
    rw [LinkFormat.joined, List.flatMap_map, hpath, hlist, List.cons_append, List.append_assoc]
    rfl
  · rwa [hpath]
  · rintro hnil
    rw [List.map_eq_nil_iff.1 hnil] at hss
    cases hss
    exact hne rfl
  · intro x hx
    obtain ⟨a, ha, rfl⟩ := List.mem_map.1 hx
    obtain ⟨s, hs⟩ := hattrs a ha
    refine ⟨fun hempty => hs.1.1 ?_, fun hempty => hs.2.1.1 ?_⟩
    · rw [← hs.bytes_read.1]
      exact congrArg CStr.bytes hempty
    · rw [← hs.bytes_read.2]
      exact congrArg CStr.bytes hempty

/-- Parsing never fails. An accepted text is kept but for the double quotes; any other leaves
    nothing, and a request with it is malformed. -/
theorem linkFormat_faithful (text : CStr) (flags : ℕ) :
    ∃ lf, LinkFormat.parse text flags = .ok lf ∧
      (checkLinkFormat text → lf.Faithful text) ∧
      (¬checkLinkFormat text → lf.path = CStr.empty ∧ lf.attributeList = [] ∧
        ∀ b resource request now, CStr.read request.data = text →
          hndPostBroker b resource request now =
            .ok (b, { response := some (({} : Pdu).respond 400) })) := by
  by_cases hcheck : checkLinkFormat text
  · obtain ⟨p, attrs, htext⟩ := checkLinkFormat_iff.1 hcheck
    exact ⟨_, LinkFormat.parse_of_linkText htext flags, fun _ => htext.faithful flags,
      fun h => absurd hcheck h⟩
  · refine ⟨{}, LinkFormat.parse_of_not hcheck flags, fun h => absurd h hcheck,
      fun _ => ⟨rfl, rfl, fun b resource request now hdata => ?_⟩⟩
    rcases hndPostBroker_eq b resource request now with ⟨p, attrs, htext, -⟩ | heq
    · rw [hdata] at htext
      exact absurd (checkLinkFormat_iff.2 ⟨p, attrs, htext⟩) hcheck
    · exact heq

end CoapBroker.Cpp
