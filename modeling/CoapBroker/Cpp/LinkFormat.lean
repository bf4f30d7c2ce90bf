import CoapBroker.Lib.Pattern
import CoapBroker.Libcoap.Resource

/-!
# The link format of the C++ broker

The class `LinkFormat`: a text is checked against a regular expression as a whole, and an
accepted text is split at its semicolons and equals signs. The texts that are accepted are
`<path>` followed by at least one `;name=value`, the value with or without double quotes
around it (`LinkText`, `checkLinkFormat_iff`); splitting gives their parts
(`LinkFormat.parse_of_linkText`).

A text that is not accepted leaves an empty object.
-/

namespace CoapBroker.Cpp

open Pattern

/-! ## The pattern -/

/-- The characters `\w` stands for. -/
def wordChars : List Byte :=
  ascii "ABCDEFGHIJKLMNOPQRSTUVWXYZabcdefghijklmnopqrstuvwxyz0123456789_"

/-- The characters of names and values, `[\w-]`. -/
def lfChars : List Byte := wordChars ++ ascii "-"

/-- The characters of paths, `[\w\/\-]`. -/
def lfPathChars : List Byte := wordChars ++ ascii "/-"

/-- `<(([\w-][\w\/\-]+[\w-])|([\w-]+))>` -/
def lfPathPattern : RegularExpression Byte :=
  literal (ascii "<") *
    (oneOf lfChars * oneOrMore (oneOf lfPathChars) * oneOf lfChars + oneOrMore (oneOf lfChars)) *
    literal (ascii ">")

/-- `[\w-]+` -/
def lfAttrNamePattern : RegularExpression Byte := oneOrMore (oneOf lfChars)

/-- `[0-9]+` -/
def lfAttrT1Pattern : RegularExpression Byte := oneOrMore (oneOf (ascii "0123456789"))

/-- `("[\w-]+")` -/
def lfAttrT2Pattern : RegularExpression Byte :=
  literal (ascii "\"") * oneOrMore (oneOf lfChars) * literal (ascii "\"")

/-- `([\w-])+` -/
def lfAttrT3Pattern : RegularExpression Byte := oneOrMore (oneOf lfChars)

/-- An attribute, with the semicolon before it. -/
def lfAttrPattern : RegularExpression Byte :=
  literal (ascii ";") * lfAttrNamePattern * literal (ascii "=") *
    (lfAttrT1Pattern + lfAttrT2Pattern + lfAttrT3Pattern)

/-- `link_format_pattern_` -/
def linkFormatPattern : RegularExpression Byte := lfPathPattern * oneOrMore lfAttrPattern

/-- `check_link_format`. -/
def checkLinkFormat (linkFormat : CStr) : Bool := linkFormatPattern.rmatch linkFormat.bytes

/-! ## The object -/

/-- `LinkFormat`. -/
structure LinkFormat where
  rawData : CStr := CStr.empty
  path : CStr := CStr.empty
  attributeList : List CoapAttr := []
  deriving DecidableEq

/-- `parse_attribute`. -/
def parseAttribute (flags : ℕ) (attributeLf : List Byte) : Except Fault CoapAttr :=
  match attributeLf.splitOn ('=' : Byte) with
  | name :: value :: _ =>
    .ok ⟨CStr.read name, CStr.read (value.filter (· ≠ ('"' : Byte))), flags⟩
  | _ => .error .outOfBounds

namespace LinkFormat

/-- The constructor. -/
def parse (linkFormat : CStr) (flags : ℕ) : Except Fault LinkFormat :=
  if checkLinkFormat linkFormat then
    match linkFormat.bytes.splitOn (';' : Byte) with
    | first :: tempResult => do
      let attributeList ← tempResult.mapM (parseAttribute flags)
      .ok {
        rawData := linkFormat
        path := CStr.read ((first.drop 1).take (first.length - 2))
        attributeList }
    | [] => .error .outOfBounds
  else .ok {}

/-- `is_valid`. -/
def isValid (lf : LinkFormat) : Bool := checkLinkFormat lf.rawData

/-- `set_path`. -/
def setPath (lf : LinkFormat) (path : CStr) : LinkFormat := { lf with path }

/-- `is_attribute_exist`. -/
def isAttributeExist (lf : LinkFormat) (name : CStr) : Bool :=
  lf.attributeList.any fun value => value.name = name

/-- `get_attribute`: the first attribute of that name, or an empty one. -/
def getAttribute (lf : LinkFormat) (name : CStr) : CoapAttr :=
  (lf.attributeList.find? fun value => value.name = name).getD ⟨CStr.empty, CStr.empty, 0⟩

end LinkFormat

/-! ## The texts that are accepted -/

/-- A path: it neither starts nor ends with `/`. -/
structure IsPath (p : List Byte) : Prop where
  ne_nil : p ≠ []
  chars : ∀ c ∈ p, c ∈ lfPathChars
  head : p.head? ≠ some ('/' : Byte)
  last : p.getLast? ≠ some ('/' : Byte)

/-- The text `name=value`, with or without double quotes around the value. -/
def IsAttr (s : List Byte) (a : List Byte × List Byte) : Prop :=
  (a.1 ≠ [] ∧ ∀ c ∈ a.1, c ∈ lfChars) ∧ (a.2 ≠ [] ∧ ∀ c ∈ a.2, c ∈ lfChars) ∧
    (s = a.1 ++ ('=' : Byte) :: a.2 ∨
      s = a.1 ++ ('=' : Byte) :: ('"' : Byte) :: (a.2 ++ [('"' : Byte)]))

/-- The text of a path and of at least one attribute. -/
def LinkText (text p : List Byte) (attrs : List (List Byte × List Byte)) : Prop :=
  ∃ ss, ss ≠ [] ∧ IsPath p ∧ List.Forall₂ IsAttr ss attrs ∧
    text = [(';' : Byte)].intercalate ((('<' : Byte) :: (p ++ [('>' : Byte)])) :: ss)

/-! ## Matching -/

theorem lfChars_subset : ∀ c ∈ lfChars, c ∈ lfPathChars := forall_mem_of_all (by decide)

theorem mem_lfChars_of_ne {c : Byte} (h : c ∈ lfPathChars) (hne : c ≠ ('/' : Byte)) :
    c ∈ lfChars :=
  have hall : ∀ c ∈ lfPathChars, c = ('/' : Byte) ∨ c ∈ lfChars := forall_mem_of_all (by decide)
  (hall c h).resolve_left hne

theorem digits_subset : ∀ c ∈ ascii "0123456789", c ∈ lfChars :=
  forall_mem_of_all (by decide)

theorem notMem_lfChars {s : List Byte} (h : ∀ c ∈ s, c ∈ lfChars) {d : Byte} (hd : d ∉ lfChars) :
    d ∉ s :=
  fun hm => hd (h d hm)

theorem isPath_iff {p : List Byte} :
    p ∈ (oneOf lfChars * oneOrMore (oneOf lfPathChars) * oneOf lfChars +
      oneOrMore (oneOf lfChars)).matches' ↔ IsPath p := by
  have hslash : ('/' : Byte) ∉ lfChars := by decide
  rw [mem_matches_add]
  constructor
  · rintro (h | h)
    · obtain ⟨am, ham, z', hz', rfl⟩ := mem_matches_mul.1 h
      obtain ⟨a', ha', m, hm', rfl⟩ := mem_matches_mul.1 ham
      obtain ⟨a, ha, rfl⟩ := mem_oneOf.1 ha'
      obtain ⟨z, hz, rfl⟩ := mem_oneOf.1 hz'
      obtain ⟨-, hm⟩ := mem_oneOrMore_oneOf.1 hm'
      refine ⟨by simp, ?_, ?_, ?_⟩
      · intro c hc
        rcases List.mem_append.1 hc with hc | hc
        · rcases List.mem_append.1 hc with hc | hc
          · exact lfChars_subset c (List.mem_singleton.1 hc ▸ ha)
          · exact hm c hc
        · exact lfChars_subset c (List.mem_singleton.1 hc ▸ hz)
      · exact fun h => hslash (Option.some.inj h ▸ ha)
      · rw [List.getLast?_concat]
        exact fun h => hslash (Option.some.inj h ▸ hz)
    · obtain ⟨hne, hp⟩ := mem_oneOrMore_oneOf.1 h
      exact ⟨hne, fun c hc => lfChars_subset c (hp c hc),
        fun h => hslash (hp _ (List.mem_of_mem_head? h)),
        fun h => hslash (hp _ (List.mem_of_mem_getLast? h))⟩
  · rintro ⟨hne, hchars, hhead, hlast⟩
    obtain ⟨a, p, rfl⟩ := List.exists_cons_of_ne_nil hne
    have ha : a ∈ lfChars := mem_lfChars_of_ne (hchars a List.mem_cons_self)
      fun h => hhead (congrArg some h)
    rcases List.eq_nil_or_concat' p with rfl | ⟨m, z, rfl⟩
    · refine .inr (mem_oneOrMore_oneOf.2 ⟨hne, fun c hc => ?_⟩)
      rwa [List.mem_singleton.1 hc]
    have hz : z ∈ lfChars := by
      refine mem_lfChars_of_ne (hchars z (by simp)) fun h => hlast ?_
      rw [← List.cons_append, List.getLast?_concat, h]
    -- two characters match the second alternative, more match the first
    rcases m with _ | ⟨b, m⟩
    · refine .inr (mem_oneOrMore_oneOf.2 ⟨hne, fun c hc => ?_⟩)
      rcases List.mem_cons.1 hc with rfl | hc
      · exact ha
      · rwa [List.mem_singleton.1 hc]
    · refine .inl (mem_matches_mul.2 ⟨a :: b :: m, mem_matches_mul.2 ⟨[a], mem_oneOf.2 ⟨a, ha, rfl⟩,
        b :: m, mem_oneOrMore_oneOf.2 ⟨List.cons_ne_nil b m, fun c hc => ?_⟩, rfl⟩, [z],
        mem_oneOf.2 ⟨z, hz, rfl⟩, rfl⟩)
      exact hchars c (List.mem_cons_of_mem a (List.mem_append_left _ hc))

theorem mem_lfPathPattern {s : List Byte} :
    s ∈ lfPathPattern.matches' ↔ ∃ p, IsPath p ∧ s = ('<' : Byte) :: (p ++ [('>' : Byte)]) := by
  rw [lfPathPattern, mem_matches_mul]
  constructor
  · rintro ⟨l, hl, r, hr, rfl⟩
    obtain ⟨a, ha, p, hp, rfl⟩ := mem_matches_mul.1 hl
    rw [mem_literal.1 ha, mem_literal.1 hr]
    exact ⟨p, isPath_iff.1 hp, rfl⟩
  · rintro ⟨p, hp, rfl⟩
    exact ⟨('<' : Byte) :: p, mem_matches_mul.2 ⟨_, mem_literal.2 rfl, p, isPath_iff.2 hp, rfl⟩, _,
      mem_literal.2 rfl, rfl⟩

theorem mem_lfAttrPattern {s : List Byte} :
    s ∈ lfAttrPattern.matches' ↔ ∃ t a, IsAttr t a ∧ s = (';' : Byte) :: t := by
  rw [lfAttrPattern, mem_matches_mul]
  constructor
  · rintro ⟨sne, hsne, v, hv, rfl⟩
    obtain ⟨sn, hsn, e, he, rfl⟩ := mem_matches_mul.1 hsne
    obtain ⟨semi, hsemi, n, hn', rfl⟩ := mem_matches_mul.1 hsn
    rw [mem_literal.1 hsemi, mem_literal.1 he]
    have hn := mem_oneOrMore_oneOf.1 hn'
    rw [mem_matches_add, mem_matches_add] at hv
    -- digits, a quoted value, or a plain one
    rcases hv with (hv | hv) | hv
    · obtain ⟨hne, hdigits⟩ := mem_oneOrMore_oneOf.1 hv
      refine ⟨n ++ ('=' : Byte) :: v, (n, v),
        ⟨hn, ⟨hne, fun c hc => digits_subset c (hdigits c hc)⟩, .inl rfl⟩, by simp [ascii]⟩
    · obtain ⟨qw, hqw, q, hq, rfl⟩ := mem_matches_mul.1 hv
      obtain ⟨q', hq', w, hw, rfl⟩ := mem_matches_mul.1 hqw
      rw [mem_literal.1 hq, mem_literal.1 hq']
      exact ⟨n ++ ('=' : Byte) :: ('"' : Byte) :: (w ++ [('"' : Byte)]), (n, w),
        ⟨hn, mem_oneOrMore_oneOf.1 hw, .inr rfl⟩, by simp [ascii]⟩
    · exact ⟨n ++ ('=' : Byte) :: v, (n, v), ⟨hn, mem_oneOrMore_oneOf.1 hv, .inl rfl⟩,
        by simp [ascii]⟩
  · rintro ⟨t, a, ⟨hn, hv, ht⟩, rfl⟩
    have hname : (';' : Byte) :: (a.1 ++ [('=' : Byte)]) ∈
        (literal (ascii ";") * lfAttrNamePattern * literal (ascii "=")).matches' :=
      mem_matches_mul.2 ⟨(';' : Byte) :: a.1, mem_matches_mul.2 ⟨_, mem_literal.2 rfl, a.1,
        mem_oneOrMore_oneOf.2 hn, rfl⟩, _, mem_literal.2 rfl, rfl⟩
    rcases ht with rfl | rfl
    · refine ⟨_, hname, a.2, ?_, by simp⟩
      rw [mem_matches_add]
      exact .inr (mem_oneOrMore_oneOf.2 hv)
    · refine ⟨_, hname, ('"' : Byte) :: (a.2 ++ [('"' : Byte)]), ?_, by simp⟩
      rw [mem_matches_add, mem_matches_add]
      exact .inl (.inr (mem_matches_mul.2 ⟨('"' : Byte) :: a.2, mem_matches_mul.2
        ⟨_, mem_literal.2 rfl, a.2, mem_oneOrMore_oneOf.2 hv, rfl⟩, _, mem_literal.2 rfl, rfl⟩))

theorem intercalate_cons_eq (c : Byte) (s : List Byte) (ss : List (List Byte)) :
    [c].intercalate (s :: ss) = s ++ (ss.map (List.cons c)).flatten := by
  induction ss generalizing s with
  | nil => simp
  | cons t ss ih => rw [intercalate_cons_cons, ih, List.map_cons, List.flatten_cons]; rfl

/-- The texts that are accepted. -/
theorem checkLinkFormat_iff {text : CStr} :
    checkLinkFormat text ↔ ∃ p attrs, LinkText text.bytes p attrs := by
  rw [checkLinkFormat, RegularExpression.rmatch_iff_matches', linkFormatPattern, mem_matches_mul]
  constructor
  · rintro ⟨l, hl, r, hr, heq⟩
    obtain ⟨p, hp, rfl⟩ := mem_lfPathPattern.1 hl
    obtain ⟨ss, hne, rfl, hss⟩ := mem_oneOrMore.1 hr
    have hparts : ∃ ts attrs, ss = ts.map (List.cons (';' : Byte)) ∧
        List.Forall₂ IsAttr ts attrs := by
      clear hr heq hne
      induction ss with
      | nil => exact ⟨[], [], rfl, .nil⟩
      | cons s ss ih =>
        rw [List.forall_mem_cons] at hss
        obtain ⟨t, a, hta, rfl⟩ := mem_lfAttrPattern.1 hss.1
        obtain ⟨ts, attrs, rfl, hts⟩ := ih hss.2
        exact ⟨t :: ts, a :: attrs, rfl, .cons hta hts⟩
    obtain ⟨ts, attrs, rfl, hts⟩ := hparts
    refine ⟨p, attrs, ts, fun h => hne (by rw [h, List.map_nil]), hp, hts, ?_⟩
    rw [intercalate_cons_eq, heq]
  · rintro ⟨p, attrs, ts, hne, hp, hts, heq⟩
    refine ⟨_, mem_lfPathPattern.2 ⟨p, hp, rfl⟩, _, mem_oneOrMore.2
      ⟨ts.map (List.cons (';' : Byte)), fun h => hne (List.map_eq_nil_iff.1 h), rfl, ?_⟩,
      by rw [heq, intercalate_cons_eq]⟩
    intro s hs
    obtain ⟨t, ht, rfl⟩ := List.mem_map.1 hs
    obtain ⟨a, -, hta⟩ := exists_of_mem_forall₂ hts ht
    exact mem_lfAttrPattern.2 ⟨t, a, hta, rfl⟩

/-! ## Splitting -/

theorem IsAttr.parseAttribute_eq {s : List Byte} {a : List Byte × List Byte} (h : IsAttr s a)
    (flags : ℕ) : parseAttribute flags s = .ok ⟨CStr.read a.1, CStr.read a.2, flags⟩ := by
  obtain ⟨⟨-, hn⟩, ⟨-, hv⟩, hs⟩ := h
  have hnEq : ('=' : Byte) ∉ a.1 := notMem_lfChars hn (by decide)
  have hvEq : ('=' : Byte) ∉ a.2 := notMem_lfChars hv (by decide)
  have hvQuote : a.2.filter (· ≠ ('"' : Byte)) = a.2 :=
    List.filter_eq_self.2 fun c hc => decide_eq_true fun h =>
      notMem_lfChars hv (by decide : ('"' : Byte) ∉ lfChars) (h ▸ hc)
  rcases hs with rfl | rfl
  · rw [parseAttribute, List.splitOn_append_cons_self_of_not_mem hnEq,
      List.splitOn_eq_singleton hvEq]
    dsimp only
    rw [hvQuote]
  · have hne : ('=' : Byte) ≠ ('"' : Byte) := by decide
    have hquoted : ('=' : Byte) ∉ ('"' : Byte) :: (a.2 ++ [('"' : Byte)]) := by
      simp [hvEq, hne]
    rw [parseAttribute, List.splitOn_append_cons_self_of_not_mem hnEq,
      List.splitOn_eq_singleton hquoted]
    dsimp only
    rw [List.filter_cons_of_neg (by decide), List.filter_append, hvQuote]
    simp

/-- A character that is none of a link format's is in no attribute. -/
theorem IsAttr.notMem {s : List Byte} {a : List Byte × List Byte} (h : IsAttr s a) {d : Byte}
    (hd : d ∉ lfChars) (heq : d ≠ ('=' : Byte)) (hquote : d ≠ ('"' : Byte)) : d ∉ s := by
  obtain ⟨⟨-, hn⟩, ⟨-, hv⟩, hs⟩ := h
  have hdn := notMem_lfChars hn hd
  have hdv := notMem_lfChars hv hd
  rcases hs with rfl | rfl
  · simp [hdn, hdv, heq]
  · simp [hdn, hdv, heq, hquote]

theorem IsPath.notMem {p : List Byte} (h : IsPath p) {d : Byte} (hd : d ∉ lfPathChars) : d ∉ p :=
  fun hm => hd (h.chars d hm)

/-- The object made of an accepted text. -/
theorem LinkFormat.parse_of_linkText {text : CStr} {p : List Byte}
    {attrs : List (List Byte × List Byte)} (h : LinkText text.bytes p attrs) (flags : ℕ) :
    LinkFormat.parse text flags = .ok {
      rawData := text
      path := CStr.read p
      attributeList := attrs.map fun a => ⟨CStr.read a.1, CStr.read a.2, flags⟩ } := by
  have hcheck := checkLinkFormat_iff.2 ⟨p, attrs, h⟩
  obtain ⟨ss, hne, hp, hss, heq⟩ := h
  have hsemi : ∀ l ∈ (('<' : Byte) :: (p ++ [('>' : Byte)])) :: ss, (';' : Byte) ∉ l := by
    have hpath : (';' : Byte) ∉ p := hp.notMem (by decide)
    have hlt : (';' : Byte) ≠ ('<' : Byte) := by decide
    have hgt : (';' : Byte) ≠ ('>' : Byte) := by decide
    refine List.forall_mem_cons.2 ⟨by simp [hpath, hlt, hgt], fun s hs => ?_⟩
    obtain ⟨a, -, ha⟩ := exists_of_mem_forall₂ hss hs
    exact ha.notMem (by decide) (by decide) (by decide)
  have hmap : ss.mapM (parseAttribute flags) =
      .ok (attrs.map fun a => ⟨CStr.read a.1, CStr.read a.2, flags⟩) := by
    clear hne heq hsemi
    induction hss with
    | nil => rfl
    | cons ha hss ih => rw [List.mapM_cons, ha.parseAttribute_eq, ih]; rfl
  have hpath : ((('<' : Byte) :: (p ++ [('>' : Byte)])).drop 1).take
      ((('<' : Byte) :: (p ++ [('>' : Byte)])).length - 2) = p := by
    simp
  rw [LinkFormat.parse, if_pos hcheck, heq, List.splitOn_intercalate _ hsemi (List.cons_ne_nil _ _)]
  dsimp only
  rw [hmap, hpath]
  rfl

/-- A text that is not accepted leaves an empty object. -/
theorem LinkFormat.parse_of_not {text : CStr} (h : ¬checkLinkFormat text) (flags : ℕ) :
    LinkFormat.parse text flags = .ok {} := by
  rw [LinkFormat.parse, if_neg h]

end CoapBroker.Cpp
