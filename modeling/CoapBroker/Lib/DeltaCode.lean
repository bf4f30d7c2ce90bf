import Mathlib.Algebra.BigOperators.Group.List.Basic
import Mathlib.Data.List.Pairwise
import Mathlib.Tactic

/-!
# Delta coding

A list of numbered items may be kept with the difference of each number to the one before
instead of the number. The numbers are the running sums of the differences (`absolute`), which are
ascending; the differences of an ascending list give its numbers back (`absolute_relative`).

An item is inserted (`insertDelta`) or taken out (`removeDelta`) without computing the numbers, by
making up for it in the difference that follows; of the items alone, one is put in at some place
(`map_insertDelta`), or the first one of a kind is gone (`map_removeDelta`). When items are merely
left out, the numbers of those behind them are kept exactly if nothing was lost with them
(`absolute_filter_iff`).
-/

namespace CoapBroker

variable {α β : Type*}

/-- The numbers of items given with their differences, after the number `base`. -/
def absolute (base : ℕ) : List (ℕ × α) → List (ℕ × α)
  | [] => []
  | (d, a) :: l => (base + d, a) :: absolute (base + d) l

/-- The differences of items given with their numbers, after the number `base`. -/
def relative (base : ℕ) : List (ℕ × α) → List (ℕ × α)
  | [] => []
  | (n, a) :: l => (n - base, a) :: relative n l

/-- The numbers are ascending, from `base` on. -/
def AscendingFrom (base : ℕ) : List (ℕ × α) → Prop
  | [] => True
  | (n, _) :: l => base ≤ n ∧ AscendingFrom n l

/-- The last number, or `base` when there is none. -/
def lastNumber (base : ℕ) : List (ℕ × α) → ℕ
  | [] => base
  | (n, _) :: l => lastNumber n l

theorem absolute_relative {base : ℕ} {l : List (ℕ × α)} (h : AscendingFrom base l) :
    absolute base (relative base l) = l := by
  induction l generalizing base with
  | nil => rfl
  | cons x l ih =>
    obtain ⟨hle, hl⟩ := h
    rw [relative, absolute, Nat.add_sub_cancel' hle, ih hl]

theorem ascendingFrom_absolute (base : ℕ) (l : List (ℕ × α)) :
    AscendingFrom base (absolute base l) := by
  induction l generalizing base with
  | nil => trivial
  | cons x l ih => exact ⟨Nat.le_add_right _ _, ih _⟩

theorem AscendingFrom.mono {base base' : ℕ} {l : List (ℕ × α)} (h : AscendingFrom base l)
    (hle : base' ≤ base) : AscendingFrom base' l := by
  cases l with
  | nil => trivial
  | cons x l => exact ⟨hle.trans h.1, h.2⟩

/-- Leaving items out keeps the order. -/
theorem AscendingFrom.sublist {base : ℕ} {l l' : List (ℕ × α)} (h : AscendingFrom base l)
    (hl : l'.Sublist l) : AscendingFrom base l' := by
  induction hl generalizing base with
  | slnil => trivial
  | cons x _ ih => exact (ih h.2).mono h.1
  | cons_cons x _ ih => exact ⟨h.1, ih h.2⟩

/-! ## Changing a list that is kept with differences -/

/-- Inserting an item whose number is `d` more than the base, behind those whose number is not
    greater. -/
def insertDelta (d : ℕ) (a : α) : List (ℕ × α) → List (ℕ × α)
  | [] => [(d, a)]
  | (d', a') :: l =>
    if d < d' then (d, a) :: (d' - d, a') :: l else (d', a') :: insertDelta (d - d') a l

/-- Adding to the first difference. -/
def shift (d : ℕ) : List (ℕ × α) → List (ℕ × α)
  | [] => []
  | (d', a) :: l => (d + d', a) :: l

/-- Taking the first item out that satisfies a predicate. -/
def removeDelta (p : α → Bool) : List (ℕ × α) → List (ℕ × α)
  | [] => []
  | (d, a) :: l => if p a then shift d l else (d, a) :: removeDelta p l

/-- Leaving out items loses nothing: each has the difference 0, or is not followed by one that is
    kept. -/
def Lossless (p : α → Bool) : List (ℕ × α) → Prop
  | [] => True
  | (d, a) :: l => (p a = true ∨ d = 0 ∨ ∀ x ∈ l, p x.2 = false) ∧ Lossless p l

/-- The item is behind some of the others, and before the rest. -/
theorem map_insertDelta (d : ℕ) (a : α) (l : List (ℕ × α)) :
    ∃ place, (insertDelta d a l).map Prod.snd =
      (l.map Prod.snd).take place ++ a :: (l.map Prod.snd).drop place := by
  induction l generalizing d with
  | nil => exact ⟨0, rfl⟩
  | cons x l ih =>
    rw [insertDelta]
    by_cases hlt : d < x.1
    · rw [if_pos hlt]
      exact ⟨0, rfl⟩
    · -- one item further behind than in the rest
      obtain ⟨place, hplace⟩ := ih (d - x.1)
      rw [if_neg hlt, List.map_cons, hplace]
      exact ⟨place + 1, rfl⟩

theorem map_shift (d : ℕ) (l : List (ℕ × α)) : (shift d l).map Prod.snd = l.map Prod.snd := by
  cases l with
  | nil => rfl
  | cons x l => rfl

theorem map_removeDelta (p : α → Bool) (l : List (ℕ × α)) :
    (removeDelta p l).map Prod.snd = (l.map Prod.snd).eraseP p := by
  induction l with
  | nil => rfl
  | cons x l ih =>
    rw [removeDelta, List.map_cons]
    by_cases hp : p x.2
    · rw [if_pos hp, List.eraseP_cons_of_pos hp, map_shift]
    · rw [if_neg hp, List.eraseP_cons_of_neg hp, List.map_cons, ih]

theorem absolute_shift (base d : ℕ) (l : List (ℕ × α)) :
    absolute base (shift d l) = absolute (base + d) l := by
  cases l with
  | nil => rfl
  | cons x l => rw [shift, absolute, absolute, Nat.add_assoc]

/-- The list is kept in order of the numbers, and the numbers of the others do not change. -/
theorem absolute_insertDelta (base d : ℕ) (a : α) (l : List (ℕ × α)) :
    absolute base (insertDelta d a l) =
      (absolute base l).orderedInsert (fun x y => x.1 < y.1) (base + d, a) := by
  induction l generalizing base d with
  | nil => rfl
  | cons x l ih =>
    rw [insertDelta, absolute, List.orderedInsert_cons]
    -- before the first item with a greater number, whose difference gets smaller
    by_cases hlt : d < x.1
    · rw [if_pos hlt, if_pos (Nat.add_lt_add_left hlt base), absolute, absolute,
        show base + d + (x.1 - d) = base + x.1 by omega]
    · rw [if_neg hlt, if_neg (by omega), absolute, ih,
        show base + x.1 + (d - x.1) = base + d by omega]

/-- The numbers of the others do not change. -/
theorem absolute_removeDelta (base : ℕ) (p : α → Bool) (l : List (ℕ × α)) :
    absolute base (removeDelta p l) = (absolute base l).eraseP fun x => p x.2 := by
  induction l generalizing base with
  | nil => rfl
  | cons x l ih =>
    rw [removeDelta, absolute]
    by_cases hp : p x.2
    · rw [if_pos hp, List.eraseP_cons_of_pos (p := fun y : ℕ × α => p y.2)
        (a := (base + x.1, x.2)) hp, absolute_shift]
    · rw [if_neg hp, List.eraseP_cons_of_neg (p := fun y : ℕ × α => p y.2)
        (a := (base + x.1, x.2)) hp, absolute, ih]

theorem absolute_add (base d : ℕ) (l : List (ℕ × α)) :
    absolute (base + d) l = (absolute base l).map fun x => (x.1 + d, x.2) := by
  induction l generalizing base with
  | nil => rfl
  | cons x l ih =>
    rw [absolute, absolute, List.map_cons, Nat.add_right_comm, ih]

/-- When items are left out, the numbers come no later. -/
theorem absolute_filter_le {p : α → Bool} {l : List (ℕ × α)} (base : ℕ)
    (h : ∃ x ∈ l, p x.2 = true) : ∃ a n n' rest rest',
      absolute base (l.filter fun x => p x.2) = (n, a) :: rest ∧
      (absolute base l).filter (fun x => p x.2) = (n', a) :: rest' ∧ n ≤ n' := by
  induction l generalizing base with
  | nil =>
    obtain ⟨x, hx, -⟩ := h
    exact absurd hx List.not_mem_nil
  | cons x l ih =>
    rw [absolute, List.filter_cons, List.filter_cons]
    by_cases hp : p x.2
    · rw [if_pos hp, if_pos hp, absolute]
      exact ⟨x.2, _, _, _, _, rfl, rfl, le_rfl⟩
    rw [if_neg hp, if_neg hp]
    have hl : ∃ y ∈ l, p y.2 = true := by
      obtain ⟨y, hy, hkept⟩ := h
      rcases List.mem_cons.1 hy with rfl | hy
      · exact absurd hkept hp
      · exact ⟨y, hy, hkept⟩
    obtain ⟨a, n, n', rest, rest', hleft, hright, hle⟩ := ih (base + x.1) hl
    rw [absolute_add] at hleft
    obtain ⟨y, ys, hys, hy, -⟩ := List.map_eq_cons_iff.1 hleft
    obtain ⟨rfl, rfl⟩ := Prod.mk.inj hy
    exact ⟨y.2, y.1, n', ys, rest', hys, hright, by omega⟩

/-- The numbers of those that are kept do not change exactly if nothing is lost. -/
theorem absolute_filter_iff (base : ℕ) (p : α → Bool) (l : List (ℕ × α)) :
    absolute base (l.filter fun x => p x.2) = (absolute base l).filter (fun x => p x.2) ↔
      Lossless p l := by
  induction l generalizing base with
  | nil => exact iff_of_true rfl trivial
  | cons x l ih =>
    rw [absolute, Lossless, List.filter_cons, List.filter_cons]
    by_cases hp : p x.2
    · rw [if_pos hp, if_pos hp, absolute, List.cons_inj_right, ih, and_iff_right (.inl hp)]
    rw [if_neg hp, if_neg hp, or_iff_right hp]
    by_cases hx : x.1 = 0
    · rw [hx, Nat.add_zero, ih, and_iff_right (.inl rfl)]
    rw [or_iff_right hx]
    by_cases hl : ∃ y ∈ l, p y.2 = true
    · -- the first that is kept comes earlier
      refine iff_of_false (fun heq => ?_) fun h => ?_
      · obtain ⟨a, n, n', rest, rest', hleft, hright, hle⟩ := absolute_filter_le (base + x.1) hl
        rw [absolute_add, heq, hright, List.map_cons] at hleft
        have hn := congrArg Prod.fst (List.cons.inj hleft).1
        dsimp only at hn
        omega
      · obtain ⟨y, hy, hkept⟩ := hl
        rw [h.1 y hy] at hkept
        cases hkept
    · have hnone : ∀ y ∈ l, p y.2 = false := fun y hy => Bool.eq_false_iff.2 fun h => hl ⟨y, hy, h⟩
      have hfilter : l.filter (fun y => p y.2) = [] :=
        List.filter_eq_nil_iff.2 fun y hy => by rw [hnone y hy]; exact Bool.false_ne_true
      rw [← ih (base + x.1), hfilter]
      exact (and_iff_right hnone).symm

end CoapBroker
