import Mathlib.Computability.RegularExpressions
import Mathlib.Tactic

/-!
# Patterns

Regular expressions as they are written in programs, over those of Mathlib: sets of
characters, literal texts and repetition at least once. What each of them matches is
said about lists; `RegularExpression.rmatch_iff_matches'` connects this to matching.
-/

namespace CoapBroker.Pattern

open RegularExpression

variable {α : Type*}

/-- One of the characters `cs`. -/
def oneOf (cs : List α) : RegularExpression α := cs.foldr (fun c P => char c + P) 0

/-- The text `s`. -/
def literal (s : List α) : RegularExpression α := s.foldr (fun c P => char c * P) 1

/-- `P`, at least once. -/
def oneOrMore (P : RegularExpression α) : RegularExpression α := P * star P

variable {cs s : List α} {P Q : RegularExpression α}

theorem mem_matches_mul : s ∈ (P * Q).matches' ↔ ∃ a ∈ P.matches', ∃ b ∈ Q.matches', a ++ b = s :=
  Language.mem_mul

theorem mem_matches_add : s ∈ (P + Q).matches' ↔ s ∈ P.matches' ∨ s ∈ Q.matches' :=
  Language.mem_add _ _ _

theorem mem_oneOf : s ∈ (oneOf cs).matches' ↔ ∃ c ∈ cs, s = [c] := by
  induction cs with
  | nil => exact ⟨fun h => absurd h (Language.notMem_zero s), fun ⟨_, hc, _⟩ => by cases hc⟩
  | cons c cs ih =>
    change s ∈ (char c + oneOf cs).matches' ↔ _
    rw [mem_matches_add, ih]
    constructor
    · rintro (h | ⟨d, hd, rfl⟩)
      · exact ⟨c, List.mem_cons_self, h⟩
      · exact ⟨d, List.mem_cons_of_mem c hd, rfl⟩
    · rintro ⟨d, hd, rfl⟩
      rcases List.mem_cons.1 hd with rfl | hd
      · exact .inl rfl
      · exact .inr ⟨d, hd, rfl⟩

theorem mem_literal {t : List α} : s ∈ (literal t).matches' ↔ s = t := by
  induction t generalizing s with
  | nil => exact Language.mem_one s
  | cons c t ih =>
    change s ∈ (char c * literal t).matches' ↔ _
    rw [mem_matches_mul]
    constructor
    · rintro ⟨a, ha, b, hb, rfl⟩
      rw [ih.1 hb, show a = [c] from ha, List.singleton_append]
    · rintro rfl
      exact ⟨[c], rfl, t, ih.2 rfl, rfl⟩

/-- What matches at least once is not empty and consists of matches. -/
theorem mem_oneOrMore : s ∈ (oneOrMore P).matches' ↔
    ∃ ss, ss ≠ [] ∧ s = ss.flatten ∧ ∀ t ∈ ss, t ∈ P.matches' := by
  rw [oneOrMore, mem_matches_mul]
  constructor
  · rintro ⟨a, ha, b, hb, rfl⟩
    obtain ⟨ss, rfl, hss⟩ := Language.mem_kstar.1 hb
    refine ⟨a :: ss, List.cons_ne_nil _ _, rfl, ?_⟩
    exact List.forall_mem_cons.2 ⟨ha, hss⟩
  · rintro ⟨ss, hne, rfl, hss⟩
    obtain ⟨a, ss, rfl⟩ := List.exists_cons_of_ne_nil hne
    rw [List.forall_mem_cons] at hss
    exact ⟨a, hss.1, ss.flatten, Language.mem_kstar.2 ⟨ss, rfl, hss.2⟩, rfl⟩

/-- At least one of the characters `cs`. -/
theorem mem_oneOrMore_oneOf : s ∈ (oneOrMore (oneOf cs)).matches' ↔ s ≠ [] ∧ ∀ c ∈ s, c ∈ cs := by
  rw [mem_oneOrMore]
  constructor
  · rintro ⟨ss, hne, rfl, hss⟩
    constructor
    · obtain ⟨t, ss, rfl⟩ := List.exists_cons_of_ne_nil hne
      obtain ⟨c, -, rfl⟩ := mem_oneOf.1 (hss t List.mem_cons_self)
      exact List.cons_ne_nil _ _
    · intro c hc
      obtain ⟨t, ht, hct⟩ := List.mem_flatten.1 hc
      obtain ⟨d, hd, rfl⟩ := mem_oneOf.1 (hss t ht)
      rwa [List.mem_singleton.1 hct]
  · rintro ⟨hne, hs⟩
    refine ⟨s.map fun c => [c], ?_, ?_, ?_⟩
    · rwa [ne_eq, List.map_eq_nil_iff]
    · exact (List.flatMap_singleton' s).symm
    · intro t ht
      obtain ⟨c, hc, rfl⟩ := List.mem_map.1 ht
      exact mem_oneOf.2 ⟨c, hs c hc, rfl⟩

end CoapBroker.Pattern
