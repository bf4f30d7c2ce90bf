import Mathlib.Data.Finset.Card
import Mathlib.Data.Fintype.Card
import Mathlib.Tactic

/-!
# Sets in slots

A set of at most `n` elements may be kept in `n` slots, each of them in use or not. The elements
are the values in the slots in use (`SlotSet.elems`); the slots are in order (`SlotSet.Distinct`)
when no two of them in use have the same value, so that taking one slot out of use takes its
value out of the set (`SlotSet.elems_drop`), and the set is full if and only if all slots are in
use (`SlotSet.card_elems_eq_iff`).
-/

namespace CoapBroker

/-- `n` slots for values. -/
structure SlotSet (n : ℕ) (α : Type*) where
  used : Fin n → Bool
  value : Fin n → α

namespace SlotSet

variable {n : ℕ} {α : Type*} [DecidableEq α] (s : SlotSet n α)

/-- The first slot in use with a value. -/
def find (a : α) : Option (Fin n) :=
  (List.finRange n).find? fun i => s.used i && decide (s.value i = a)

/-- The values in the slots in use. -/
def elems : Finset α := (Finset.univ.filter fun i => s.used i = true).image s.value

/-- No value is in two slots in use. -/
def Distinct : Prop := ∀ i j, s.used i = true → s.used j = true → s.value i = s.value j → i = j

/-- Putting a value into a slot. -/
def put (i : Fin n) (a : α) : SlotSet n α where
  used j := if j = i then true else s.used j
  value j := if j = i then a else s.value j

/-- Taking a slot out of use. -/
def drop (i : Fin n) : SlotSet n α where
  used j := if j = i then false else s.used j
  value := s.value

variable {s} {i : Fin n} {a : α}

theorem mem_elems : a ∈ s.elems ↔ ∃ i, s.used i = true ∧ s.value i = a := by
  simp [elems]

theorem find_eq_some (h : s.find a = some i) : s.used i = true ∧ s.value i = a := by
  simpa using List.find?_some h

theorem find_eq_none : s.find a = none ↔ a ∉ s.elems := by
  simp only [find, List.find?_eq_none, mem_elems, List.mem_finRange, forall_const, Bool.and_eq_true,
    decide_eq_true_eq, not_exists]

theorem elems_put (h : s.used i = false) : (s.put i a).elems = insert a s.elems := by
  ext b
  rw [Finset.mem_insert, mem_elems, mem_elems]
  constructor
  · rintro ⟨j, hj, rfl⟩
    by_cases hji : j = i
    · exact .inl (if_pos hji)
    · exact .inr ⟨j, (if_neg hji).symm.trans hj, (if_neg hji).symm⟩
  · rintro (rfl | ⟨j, hj, rfl⟩)
    · exact ⟨i, if_pos rfl, if_pos rfl⟩
    · have hji : j ≠ i := by
        rintro rfl
        rw [h] at hj
        exact Bool.false_ne_true hj
      exact ⟨j, (if_neg hji).trans hj, if_neg hji⟩

theorem Distinct.put (h : s.Distinct) (ha : a ∉ s.elems) : (s.put i a).Distinct := by
  intro j k hj hk hjk
  simp only [SlotSet.put] at hj hk hjk
  by_cases hji : j = i <;> by_cases hki : k = i
  · rw [hji, hki]
  · rw [if_pos hji, if_neg hki] at hjk
    rw [if_neg hki] at hk
    exact absurd (mem_elems.2 ⟨k, hk, hjk.symm⟩) ha
  · rw [if_neg hji, if_pos hki] at hjk
    rw [if_neg hji] at hj
    exact absurd (mem_elems.2 ⟨j, hj, hjk⟩) ha
  · rw [if_neg hji, if_neg hki] at hjk
    rw [if_neg hji] at hj
    rw [if_neg hki] at hk
    exact h j k hj hk hjk

theorem elems_drop (h : s.Distinct) (hi : s.used i = true) (ha : s.value i = a) :
    (s.drop i).elems = s.elems.erase a := by
  ext b
  rw [Finset.mem_erase, mem_elems, mem_elems]
  constructor
  · rintro ⟨j, hj, rfl⟩
    simp only [drop] at hj
    split_ifs at hj with hji
    exact ⟨fun heq => hji (h j i hj hi (heq.trans ha.symm)), j, hj, rfl⟩
  · rintro ⟨hne, j, hj, rfl⟩
    have hji : j ≠ i := by
      rintro rfl
      exact hne ha
    exact ⟨j, (if_neg hji).trans hj, rfl⟩

omit [DecidableEq α] in
theorem Distinct.drop (h : s.Distinct) : (s.drop i).Distinct := by
  intro j k hj hk
  simp only [SlotSet.drop] at hj hk
  split_ifs at hj hk
  exact h j k hj hk

theorem card_elems (h : s.Distinct) :
    s.elems.card = (Finset.univ.filter fun i => s.used i = true).card := by
  refine Finset.card_image_of_injOn fun i hi j hj => h i j ?_ ?_
  · simpa using hi
  · simpa using hj

/-- The set is full if and only if all slots are in use. -/
theorem card_elems_eq_iff (h : s.Distinct) : s.elems.card = n ↔ ∀ i, s.used i = true := by
  rw [card_elems h]
  constructor
  · intro hcard i
    have huniv : (Finset.univ.filter fun i => s.used i = true) = Finset.univ :=
      Finset.eq_univ_of_card _ (hcard.trans (Fintype.card_fin n).symm)
    simpa using huniv.ge (Finset.mem_univ i)
  · intro hall
    rw [Finset.filter_true_of_mem fun i _ => hall i, Finset.card_univ, Fintype.card_fin]

theorem card_elems_le (h : s.Distinct) : s.elems.card ≤ n := by
  rw [card_elems h]
  exact (Finset.card_le_univ _).trans_eq (Fintype.card_fin n)

end SlotSet

end CoapBroker
