import CoapBroker.Broker.State
import CoapBroker.Cpp.LinkFormat
import CoapBroker.Parser.Acceptance

/-!
# The two grammars

The payloads the two brokers create topics from: the C broker scans them by hand, the C++
broker matches them against a regular expression. Both grammars are parts of a wider one
(`WideText`), which has the characters of the second and lets a value have a double quote on
either side as the first one does. In it,

* the C broker accepts the texts without underscores (`linkText_iff_c`), for which it has the
  characters `-` and, in paths, `/`, besides letters and digits;
* the C++ broker accepts the texts whose values are not empty and have double quotes on both
  sides or on none (`linkText_iff`).

For an accepted text, both take the same path and the same attributes from it. Hence they agree
on a text of the wider grammar exactly when it has an underscore if and only if one of its values
is oddly quoted, and on every other text (`grammars_agree_iff`).
-/

namespace CoapBroker.Cpp

/-! ## A wider grammar -/

/-- The text `name=raw`, the value having a double quote on either side. -/
def IsWideAttr (s : List Byte) (a : List Byte × List Byte) : Prop :=
  s = a.1 ++ ('=' : Byte) :: a.2 ∧ (a.1 ≠ [] ∧ ∀ c ∈ a.1, c ∈ lfChars) ∧ a.2 ≠ [] ∧
    ∃ l v r, a.2 = l ++ v ++ r ∧ IsQuote l ∧ IsQuote r ∧ ∀ c ∈ v, c ∈ lfChars

/-- The text of a path and of at least one attribute, with its raw value. -/
def WideText (text p : List Byte) (items : List (List Byte × List Byte)) : Prop :=
  ∃ ss, ss ≠ [] ∧ IsPath p ∧ List.Forall₂ IsWideAttr ss items ∧
    text = [(';' : Byte)].intercalate ((('<' : Byte) :: (p ++ [('>' : Byte)])) :: ss)

/-- A raw value without a character but double quotes, or with one on one side only. -/
def OddlyQuoted (raw : List Byte) : Prop :=
  unquote raw = [] ∨ ¬(raw.head? = some ('"' : Byte) ↔ raw.getLast? = some ('"' : Byte))

/-- The name and the value of an attribute. -/
def unquoted (a : List Byte × List Byte) : List Byte × List Byte := (a.1, unquote a.2)

/-! ## Characters -/

theorem mem_lfChars_of_nameChar : ∀ c : Byte, nameChar c → c ∈ lfChars :=
  forall_byte (by decide +kernel)

theorem mem_lfPathChars_of_pathChar : ∀ c : Byte, pathChar c → c ∈ lfPathChars :=
  forall_byte (by decide +kernel)

theorem nameChar_of_mem_lfChars : ∀ c ∈ lfChars, c ≠ ('_' : Byte) → nameChar c :=
  forall_mem_of_all (by decide)

theorem pathChar_of_mem_lfPathChars : ∀ c ∈ lfPathChars, c ≠ ('_' : Byte) → pathChar c :=
  forall_mem_of_all (by decide)

theorem not_nameChar_underscore : ¬nameChar ('_' : Byte) := by decide
theorem not_pathChar_underscore : ¬pathChar ('_' : Byte) := by decide
theorem quote_notMem_lfChars : ('"' : Byte) ∉ lfChars := by decide

/-! ## Attributes -/

theorem IsWideAttr.unique {s : List Byte} {a b : List Byte × List Byte} (ha : IsWideAttr s a)
    (hb : IsWideAttr s b) : a = b := by
  obtain ⟨hs, hn, -⟩ := ha
  obtain ⟨hs', hn', -⟩ := hb
  have heq : ('=' : Byte) ∉ a.1 := notMem_lfChars hn.2 (by decide)
  have heq' : ('=' : Byte) ∉ b.1 := notMem_lfChars hn'.2 (by decide)
  have h := hs.symm.trans hs'
  have hname := congrArg beforeEq h
  have hraw := congrArg afterEq h
  rw [beforeEq_of_notMem heq, beforeEq_of_notMem heq'] at hname
  rw [afterEq_of_notMem heq, afterEq_of_notMem heq'] at hraw
  exact Prod.ext hname hraw

/-- The attributes of the C broker are those without underscores. -/
theorem isAttrElement_iff {s : List Byte} {n v : List Byte} :
    IsAttrElement s n v ↔
      ∃ a, IsWideAttr s a ∧ ('_' : Byte) ∉ s ∧ unquoted a = (n, v) := by
  constructor
  · intro h
    have hunder : ('_' : Byte) ∉ s :=
      h.notMem (by decide) (by decide) not_nameChar_underscore
    obtain ⟨l, r, hs, hl, hr, hn0, ht0, hn, hv⟩ := h
    have hquote : ('"' : Byte) ∉ v := notMem_of_chars not_nameChar_quote hv
    refine ⟨(n, l ++ v ++ r), ⟨hs, ⟨hn0, fun c hc => mem_lfChars_of_nameChar c (hn c hc)⟩, ht0, l, v,
      r, rfl, hl, hr, fun c hc => mem_lfChars_of_nameChar c (hv c hc)⟩, hunder, ?_⟩
    rw [unquoted, unquote_eq hl hr hquote]
  · rintro ⟨⟨n', raw⟩, ⟨hs, hn, hraw, l, v', r, hlvr, hl, hr, hv⟩, hunder, hnv⟩
    dsimp only at hs hn hraw hlvr
    have hquote : ('"' : Byte) ∉ v' := notMem_lfChars hv quote_notMem_lfChars
    rw [unquoted, hlvr, unquote_eq hl hr hquote] at hnv
    obtain ⟨rfl, rfl⟩ := Prod.mk.inj hnv
    subst hs hlvr
    simp only [List.mem_append, List.mem_cons, not_or] at hunder
    refine ⟨l, r, rfl, hl, hr, hn.1, hraw, fun c hc => ?_, fun c hc => ?_⟩
    · exact nameChar_of_mem_lfChars c (hn.2 c hc) (ne_of_mem_of_not_mem hc hunder.1)
    · exact nameChar_of_mem_lfChars c (hv c hc) (ne_of_mem_of_not_mem hc hunder.2.2.1.2)

/-- A value between the quotes neither starts nor ends with one. -/
theorem ends_ne_quote {v : List Byte} (hv : ∀ c ∈ v, c ∈ lfChars) :
    v.head? ≠ some ('"' : Byte) ∧ v.getLast? ≠ some ('"' : Byte) :=
  ⟨fun h => quote_notMem_lfChars (hv _ (List.mem_of_mem_head? h)),
    fun h => quote_notMem_lfChars (hv _ (List.mem_of_mem_getLast? h))⟩

/-- An attribute of the C++ broker, with the quotes that it has around its value. -/
theorem IsAttr.exists_wide {s : List Byte} {b : List Byte × List Byte} (h : IsAttr s b) :
    ∃ a, IsWideAttr s a ∧ ¬OddlyQuoted a.2 ∧ unquoted a = b := by
  obtain ⟨hn, ⟨hv0, hv⟩, hs | hs⟩ := h
  · have hquote : unquote b.2 = b.2 := by
      have := unquote_eq (.inl rfl) (.inl rfl) (notMem_lfChars hv quote_notMem_lfChars)
      rwa [List.nil_append, List.append_nil] at this
    refine ⟨b, ⟨hs, hn, hv0, [], b.2, [], by simp, .inl rfl, .inl rfl, hv⟩, ?_, ?_⟩
    · rw [OddlyQuoted, hquote, not_or, not_not]
      exact ⟨hv0, iff_of_false (ends_ne_quote hv).1 (ends_ne_quote hv).2⟩
    · rw [unquoted, hquote]
  · have hquote : unquote (('"' : Byte) :: (b.2 ++ [('"' : Byte)])) = b.2 :=
      unquote_eq (.inr rfl) (.inr rfl) (notMem_lfChars hv quote_notMem_lfChars)
    refine ⟨(b.1, ('"' : Byte) :: (b.2 ++ [('"' : Byte)])), ⟨hs, hn, List.cons_ne_nil _ _,
      [('"' : Byte)], b.2, [('"' : Byte)], rfl, .inr rfl, .inr rfl, hv⟩, ?_, ?_⟩
    · rw [OddlyQuoted, hquote, not_or, not_not]
      refine ⟨hv0, iff_of_true rfl ?_⟩
      rw [← List.cons_append, List.getLast?_concat]
    · rw [unquoted, hquote]

theorem IsWideAttr.isAttr {s : List Byte} {a : List Byte × List Byte} (h : IsWideAttr s a)
    (hodd : ¬OddlyQuoted a.2) : IsAttr s (unquoted a) := by
  obtain ⟨n, raw⟩ := a
  obtain ⟨hs, hn, hraw, l, v, r, hlvr, hl, hr, hv⟩ := h
  dsimp only at hs hn hraw hlvr hodd
  have hquote : unquote raw = v := by
    rw [hlvr, unquote_eq hl hr (notMem_lfChars hv quote_notMem_lfChars)]
  rw [OddlyQuoted, hquote, not_or, not_not] at hodd
  obtain ⟨hv0, hiff⟩ := hodd
  have hhead : ∀ t : List Byte, (v ++ t).head? ≠ some ('"' : Byte) := fun t => by
    rw [List.head?_append_of_ne_nil _ hv0]
    exact (ends_ne_quote hv).1
  have hlast : ∀ t : List Byte, (t ++ v).getLast? ≠ some ('"' : Byte) := fun t => by
    rw [List.getLast?_append_of_ne_nil _ hv0]
    exact (ends_ne_quote hv).2
  have hval : unquoted (n, raw) = (n, v) := by rw [unquoted, hquote]
  rw [hval]
  refine ⟨hn, ⟨hv0, hv⟩, ?_⟩
  rw [hs, hlvr]
  -- a quote on one side only is odd
  rcases hl with rfl | rfl <;> rcases hr with rfl | rfl
  · exact .inl (by simp)
  · refine absurd (hiff.2 ?_) ?_
    · rw [hlvr, List.getLast?_concat]
    · rw [hlvr, List.nil_append]
      exact hhead _
  · refine absurd (hiff.1 ?_) ?_
    · rw [hlvr]
      rfl
    · rw [hlvr, List.append_nil]
      exact hlast _
  · exact .inr rfl

/-- The attributes of the C++ broker are those that are not oddly quoted. -/
theorem isAttr_iff {s : List Byte} {b : List Byte × List Byte} :
    IsAttr s b ↔ ∃ a, IsWideAttr s a ∧ ¬OddlyQuoted a.2 ∧ unquoted a = b := by
  constructor
  · exact IsAttr.exists_wide
  · rintro ⟨a, ha, hodd, rfl⟩
    exact ha.isAttr hodd

/-! ## Texts -/

/-- A path of the C broker is one without underscores. -/
theorem isPathElement_iff {s p : List Byte} :
    IsPathElement s p ↔
      s = ('<' : Byte) :: (p ++ [('>' : Byte)]) ∧ IsPath p ∧ ('_' : Byte) ∉ p := by
  constructor
  · rintro ⟨hs, hne, hchars, hhead, hlast⟩
    exact ⟨hs, ⟨hne, fun c hc => mem_lfPathChars_of_pathChar c (hchars c hc), hhead, hlast⟩,
      notMem_of_chars not_pathChar_underscore hchars⟩
  · rintro ⟨hs, ⟨hne, hchars, hhead, hlast⟩, hunder⟩
    exact ⟨hs, hne, fun c hc => pathChar_of_mem_lfPathChars c (hchars c hc)
      (ne_of_mem_of_not_mem hc hunder), hhead, hlast⟩

/-- Lists related through a function are images of related lists. -/
theorem forall₂_iff_exists_map {α β γ : Type} {R : α → β → Prop} (S : α → γ → Prop) (f : γ → β)
    (hR : ∀ a b, R a b ↔ ∃ c, S a c ∧ f c = b) {l : List α} {m : List β} :
    List.Forall₂ R l m ↔ ∃ ms, List.Forall₂ S l ms ∧ ms.map f = m := by
  constructor
  · intro h
    induction h with
    | nil => exact ⟨[], .nil, rfl⟩
    | cons hab _ ih =>
      obtain ⟨c, hS, rfl⟩ := (hR _ _).1 hab
      obtain ⟨ms, hms, rfl⟩ := ih
      exact ⟨c :: ms, .cons hS hms, rfl⟩
  · rintro ⟨ms, hS, rfl⟩
    refine List.forall₂_map_right_iff.2 (hS.imp fun a c h => ?_)
    exact (hR a (f c)).2 ⟨c, h, rfl⟩

theorem notMem_text_iff {c : Byte} (hlt : c ≠ ('<' : Byte)) (hgt : c ≠ ('>' : Byte))
    (hsemi : c ≠ (';' : Byte)) {p : List Byte} {ss : List (List Byte)} :
    c ∉ [(';' : Byte)].intercalate ((('<' : Byte) :: (p ++ [('>' : Byte)])) :: ss) ↔
      c ∉ p ∧ ∀ s ∈ ss, c ∉ s := by
  rw [intercalate_cons_eq]
  simp [hlt, hgt, hsemi]

/-- The C broker accepts the texts without underscores. -/
theorem linkText_iff_c {text p : List Byte} {attrs : List (List Byte × List Byte)} :
    CoapBroker.LinkText text p attrs ↔
      ∃ items, WideText text p items ∧ ('_' : Byte) ∉ text ∧ items.map unquoted = attrs := by
  have hattrs : ∀ ss, List.Forall₂ (fun s a => IsAttrElement s a.1 a.2) ss attrs ↔
      ∃ items, List.Forall₂ (fun s a => ('_' : Byte) ∉ s ∧ IsWideAttr s a) ss items ∧
        items.map unquoted = attrs := by
    intro ss
    refine forall₂_iff_exists_map _ unquoted fun s b => isAttrElement_iff.trans ?_
    simp only [and_left_comm, and_assoc]
  have hunder : ∀ {p : List Byte} {ss : List (List Byte)},
      ('_' : Byte) ∉ [(';' : Byte)].intercalate ((('<' : Byte) :: (p ++ [('>' : Byte)])) :: ss) ↔
        ('_' : Byte) ∉ p ∧ ∀ s ∈ ss, ('_' : Byte) ∉ s :=
    notMem_text_iff (by decide) (by decide) (by decide)
  constructor
  · rintro ⟨s₀, ss, rfl, hp, hne, hss⟩
    obtain ⟨rfl, hpath, hp⟩ := isPathElement_iff.1 hp
    obtain ⟨items, hitems, rfl⟩ := (hattrs ss).1 hss
    obtain ⟨hno, hwide⟩ := (List.forall₂_and_left ss items).1 hitems
    exact ⟨items, ⟨ss, hne, hpath, hwide, rfl⟩, hunder.2 ⟨hp, hno⟩, rfl⟩
  · rintro ⟨items, ⟨ss, hne, hpath, hwide, rfl⟩, hno, rfl⟩
    obtain ⟨hp, hss⟩ := hunder.1 hno
    exact ⟨_, ss, rfl, isPathElement_iff.2 ⟨rfl, hpath, hp⟩, hne,
      (hattrs ss).2 ⟨items, (List.forall₂_and_left ss items).2 ⟨hss, hwide⟩, rfl⟩⟩

/-- The C++ broker accepts the texts none of whose values is oddly quoted. -/
theorem linkText_iff {text p : List Byte} {attrs : List (List Byte × List Byte)} :
    LinkText text p attrs ↔
      ∃ items, WideText text p items ∧ (∀ a ∈ items, ¬OddlyQuoted a.2) ∧
        items.map unquoted = attrs := by
  -- an attribute is a wide one that is not oddly quoted, without its quotes
  have hattrs : ∀ ss, List.Forall₂ IsAttr ss attrs ↔
      ∃ items, List.Forall₂ (fun s a => IsWideAttr s a ∧ ¬OddlyQuoted a.2) ss items ∧
        items.map unquoted = attrs := by
    intro ss
    refine forall₂_iff_exists_map _ unquoted fun s b => isAttr_iff.trans ?_
    simp only [and_assoc]
  have hsplit : ∀ {ss : List (List Byte)} {items : List (List Byte × List Byte)},
      List.Forall₂ (fun s a => IsWideAttr s a ∧ ¬OddlyQuoted a.2) ss items ↔
        List.Forall₂ IsWideAttr ss items ∧ ∀ a ∈ items, ¬OddlyQuoted a.2 := by
    intro ss items
    constructor
    · intro h
      refine ⟨h.imp fun _ _ => And.left, fun a ha => ?_⟩
      obtain ⟨s, -, hs⟩ := exists_of_mem_forall₂ h.flip ha
      exact hs.2
    · rintro ⟨hwide, hno⟩
      induction hwide with
      | nil => exact .nil
      | cons ha _ ih =>
        rw [List.forall_mem_cons] at hno
        exact .cons ⟨ha, hno.1⟩ (ih hno.2)
  constructor
  · rintro ⟨ss, hne, hpath, hss, rfl⟩
    obtain ⟨items, hitems, rfl⟩ := (hattrs ss).1 hss
    obtain ⟨hwide, hno⟩ := hsplit.1 hitems
    exact ⟨items, ⟨ss, hne, hpath, hwide, rfl⟩, hno, rfl⟩
  · rintro ⟨items, ⟨ss, hne, hpath, hwide, rfl⟩, hno, rfl⟩
    exact ⟨ss, hne, hpath, (hattrs ss).2 ⟨items, hsplit.2 ⟨hwide, hno⟩, rfl⟩, rfl⟩

theorem IsWideAttr.semi_notMem {s : List Byte} {a : List Byte × List Byte} (h : IsWideAttr s a) :
    (';' : Byte) ∉ s := by
  obtain ⟨rfl, ⟨-, hn⟩, -, l, v, r, hlvr, hl, hr, hv⟩ := h
  rw [hlvr]
  simp only [List.mem_append, List.mem_cons, not_or]
  exact ⟨notMem_lfChars hn (by decide), by decide, ⟨notMem_of_isQuote (by decide) hl,
    notMem_lfChars hv (by decide)⟩, notMem_of_isQuote (by decide) hr⟩

/-- A text determines the path and the raw attributes. -/
theorem WideText.unique {text p p' : List Byte} {items items' : List (List Byte × List Byte)}
    (h : WideText text p items) (h' : WideText text p' items') : p = p' ∧ items = items' := by
  have hpieces : ∀ {p : List Byte} {ss : List (List Byte)} {items : List (List Byte × List Byte)},
      IsPath p → List.Forall₂ IsWideAttr ss items →
      ∀ s ∈ (('<' : Byte) :: (p ++ [('>' : Byte)])) :: ss, (';' : Byte) ∉ s := by
    intro p ss items hpath hwide
    have hp : (';' : Byte) ∉ p := hpath.notMem (by decide)
    refine List.forall_mem_cons.2 ⟨by simp [hp, show ¬(';' : Byte) = ('<' : Byte) by decide,
      show ¬(';' : Byte) = ('>' : Byte) by decide], fun s hs => ?_⟩
    obtain ⟨a, -, ha⟩ := exists_of_mem_forall₂ hwide hs
    exact ha.semi_notMem
  obtain ⟨ss, -, hpath, hwide, heq⟩ := h
  obtain ⟨ss', -, hpath', hwide', heq'⟩ := h'
  obtain ⟨hp, rfl⟩ := eq_of_intercalate_eq (hpieces hpath hwide) (hpieces hpath' hwide')
    (heq.symm.trans heq')
  refine ⟨List.append_cancel_right (List.cons.inj hp).2, ?_⟩
  exact List.right_unique_forall₂' (fun s a b ha hb => ha.unique hb) hwide hwide'

/-! ## Agreement -/

/-- The names and values of attributes. -/
def namesAndValues (attrs : List CoapAttr) : List (List Byte × List Byte) :=
  attrs.map fun a => (a.name.bytes, a.value.bytes)

/-- The two brokers agree on a payload: one accepts it if the other one does, and then they take
    the same path and the same attributes from it (a resource has the last one first). -/
structure GrammarsAgree (text : CStr) (old : CoapResource) : Prop where
  accept : (∃ resource, parseLinkFormat text old = .ok (resource, true)) ↔ checkLinkFormat text
  result : ∀ r lfData flags, parseLinkFormat text old = .ok (.live r, true) → checkLinkFormat text →
    LinkFormat.parse text flags = .ok lfData →
    r.uri.bytes = old.uri.bytes ++ ('/' : Byte) :: lfData.path.bytes ∧
      (namesAndValues r.linkAttr).reverse = namesAndValues lfData.attributeList

/-- The C broker accepts the texts of its grammar. -/
theorem parseLinkFormat_accepts_iff (text : CStr) (old : CoapResource) :
    (∃ resource, parseLinkFormat text old = .ok (resource, true)) ↔
      ∃ p attrs, CoapBroker.LinkText text.bytes p attrs := by
  obtain ⟨resource, status, hparse, hstatus, -⟩ := parseLinkFormat_iff_linkText text old
  rw [← hstatus, hparse]
  constructor
  · rintro ⟨resource', h⟩
    cases h
    rfl
  · rintro rfl
    exact ⟨resource, rfl⟩

/-- What the two brokers take from a text that both accept is the same. -/
theorem results_agree {text : CStr} {old r : CoapResource} {lfData : LinkFormat} {flags : ℕ}
    (hc : parseLinkFormat text old = .ok (.live r, true)) (hcpp : checkLinkFormat text)
    (hlf : LinkFormat.parse text flags = .ok lfData) :
    r.uri.bytes = old.uri.bytes ++ ('/' : Byte) :: lfData.path.bytes ∧
      (namesAndValues r.linkAttr).reverse = namesAndValues lfData.attributeList := by
  obtain ⟨resource, status, hparse, hstatus, hlive, -⟩ := parseLinkFormat_iff_linkText text old
  obtain ⟨rfl, rfl⟩ := Prod.mk.inj (Except.ok.inj (hparse.symm.trans hc))
  obtain ⟨p, attrs, htext⟩ := hstatus.1 rfl
  obtain ⟨r', hr', huri, hattrs⟩ := hlive p attrs htext
  cases hr'
  obtain ⟨p', attrs', htext'⟩ := checkLinkFormat_iff.1 hcpp
  obtain ⟨items, hwide, -, rfl⟩ := linkText_iff_c.1 htext
  obtain ⟨items', hwide', -, rfl⟩ := linkText_iff.1 htext'
  obtain ⟨rfl, rfl⟩ := hwide.unique hwide'
  rw [LinkFormat.parse_of_linkText htext', Except.ok.injEq] at hlf
  have hpath : IsPath p := htext'.choose_spec.2.1
  subst hlf
  refine ⟨by rw [huri, CStr.read_of_notMem (hpath.notMem (by decide))], ?_⟩
  rw [namesAndValues, hattrs, List.reverse_reverse, namesAndValues, List.map_map]
  refine ((List.map_congr_left fun a ha => ?_).trans (List.map_id _)).symm
  obtain ⟨ss, -, -, hss, -⟩ := htext'
  obtain ⟨s, -, ⟨-, hn⟩, ⟨-, hv⟩, -⟩ := exists_of_mem_forall₂ hss.flip ha
  rw [Function.comp_apply, CStr.read_of_notMem (notMem_lfChars hn (by decide)),
    CStr.read_of_notMem (notMem_lfChars hv (by decide))]
  rfl

/-- On every text, the two brokers agree exactly if, in case this is a text of the wider grammar,
    there is an underscore in it if and only if one of its values is oddly quoted. -/
theorem grammars_agree_iff (text : CStr) (old : CoapResource) :
    GrammarsAgree text old ↔ ∀ p items, WideText text.bytes p items →
      (('_' : Byte) ∈ text.bytes ↔ ∃ a ∈ items, OddlyQuoted a.2) := by
  have hagree : GrammarsAgree text old ↔
      ((∃ p attrs, CoapBroker.LinkText text.bytes p attrs) ↔
        ∃ p attrs, LinkText text.bytes p attrs) := by
    rw [← parseLinkFormat_accepts_iff text old, ← checkLinkFormat_iff]
    exact ⟨fun h => h.accept, fun h => ⟨h, fun _ _ _ => results_agree⟩⟩
  have hc : ∀ {p items}, WideText text.bytes p items →
      ((∃ p attrs, CoapBroker.LinkText text.bytes p attrs) ↔ ('_' : Byte) ∉ text.bytes) := by
    intro p items hwide
    constructor
    · rintro ⟨p', attrs, h⟩
      obtain ⟨items', -, hunder, -⟩ := linkText_iff_c.1 h
      exact hunder
    · exact fun h => ⟨p, _, linkText_iff_c.2 ⟨items, hwide, h, rfl⟩⟩
  have hcpp : ∀ {p items}, WideText text.bytes p items →
      ((∃ p attrs, LinkText text.bytes p attrs) ↔ ¬∃ a ∈ items, OddlyQuoted a.2) := by
    intro p items hwide
    simp only [not_exists, not_and]
    constructor
    · rintro ⟨p', attrs, h⟩
      obtain ⟨items', hwide', hno, -⟩ := linkText_iff.1 h
      obtain ⟨-, rfl⟩ := hwide.unique hwide'
      exact hno
    · exact fun h => ⟨p, _, linkText_iff.2 ⟨items, hwide, h, rfl⟩⟩
  rw [hagree]
  by_cases hwide : ∃ p items, WideText text.bytes p items
  · obtain ⟨p, items, hwide⟩ := hwide
    rw [hc hwide, hcpp hwide, not_iff_not]
    constructor
    · intro hiff p' items' hwide'
      obtain ⟨-, rfl⟩ := hwide.unique hwide'
      exact hiff
    · exact fun hall => hall p items hwide
  · -- neither broker accepts a text that is not of the wider grammar
    refine iff_of_true (iff_of_false ?_ ?_) fun p items h => absurd ⟨p, items, h⟩ hwide
    · rintro ⟨p, attrs, h⟩
      obtain ⟨items, h, -⟩ := linkText_iff_c.1 h
      exact hwide ⟨p, items, h⟩
    · rintro ⟨p, attrs, h⟩
      obtain ⟨items, h, -⟩ := linkText_iff.1 h
      exact hwide ⟨p, items, h⟩

theorem GrammarsAgree.accept_eq {text : CStr} {old : CoapResource} (h : GrammarsAgree text old) :
    (parseLinkFormat text old).toOption.any Prod.snd = checkLinkFormat text := by
  rw [Bool.eq_iff_iff, ← h.accept, Option.any_eq_true]
  constructor
  · rintro ⟨⟨resource, status⟩, hres, hstatus⟩
    rcases hparse : parseLinkFormat text old with f | x <;> rw [hparse] at hres
    · cases hres
    · cases hres
      exact ⟨resource, congrArg (fun s => Except.ok (resource, s)) hstatus⟩
  · rintro ⟨resource, hres⟩
    exact ⟨(resource, true), by rw [hres]; rfl, rfl⟩

/-- Texts that one broker accepts and the other one does not: with an underscore, with a value
    quoted on one side, and with an empty value. -/
theorem grammars_disagree :
    ¬GrammarsAgree (CStr.lit "<a_b>;ct=0") (coapResourceInit brokerPath 0) ∧
      ¬GrammarsAgree (CStr.lit "<a>;ct=\"0") (coapResourceInit brokerPath 0) ∧
      ¬GrammarsAgree (CStr.lit "<a>;ct=\"\"") (coapResourceInit brokerPath 0) :=
  ⟨fun h => absurd h.accept_eq (by decide +kernel), fun h => absurd h.accept_eq (by decide +kernel),
    fun h => absurd h.accept_eq (by decide +kernel)⟩

end CoapBroker.Cpp
