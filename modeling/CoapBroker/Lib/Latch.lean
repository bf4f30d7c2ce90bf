import CoapBroker.Lib.Run

/-!
# Latches

A property of the states of a program that some of its steps establish and others take away, while
the rest leave it as it is. At the end of a run it holds exactly if one of the steps has established
it and none has taken it away since (`Run.latch_iff`).
-/

namespace CoapBroker

variable {σ ε ω φ : Type*} {step : σ → ε → Except φ (σ × ω)} {s₀ s : σ}
  {tr : List (Transition σ ε ω)}

/-- In the order of a run, something has happened, and nothing of another kind since. -/
def HappenedSince (sets clears : Transition σ ε ω → Prop) (tr : List (Transition σ ε ω)) : Prop :=
  ∃ tr₁ x tr₂, tr = tr₁ ++ x :: tr₂ ∧ sets x ∧ ∀ y ∈ tr₂, ¬clears y

variable {sets clears : Transition σ ε ω → Prop}

theorem not_happenedSince_nil : ¬HappenedSince sets clears ([] : List (Transition σ ε ω)) := by
  rintro ⟨tr₁, x, tr₂, heq, -⟩
  rw [eq_comm, List.append_eq_nil_iff] at heq
  cases heq.2

/-- The last step decides, unless it is of neither kind. -/
theorem happenedSince_append (x : Transition σ ε ω) :
    HappenedSince sets clears (tr ++ [x]) ↔ sets x ∨ ¬clears x ∧ HappenedSince sets clears tr := by
  constructor
  · rintro ⟨tr₁, y, tr₂, heq, hy, htr₂⟩
    rcases List.eq_nil_or_concat tr₂ with rfl | ⟨tr₃, z, rfl⟩
    · obtain ⟨-, hxy⟩ := List.append_inj' heq rfl
      rw [List.head_eq_of_cons_eq hxy]
      exact .inl hy
    · rw [List.concat_eq_append, ← List.cons_append, ← List.append_assoc] at heq
      obtain ⟨rfl, hxz⟩ := List.append_inj' heq rfl
      rw [List.head_eq_of_cons_eq hxz]
      rw [List.concat_eq_append, List.forall_mem_append, List.forall_mem_singleton] at htr₂
      exact .inr ⟨htr₂.2, tr₁, y, tr₃, rfl, hy, htr₂.1⟩
  · rintro (hx | ⟨hx, tr₁, y, tr₂, rfl, hy, htr₂⟩)
    · exact ⟨tr, x, [], rfl, hx, fun y hy => absurd hy List.not_mem_nil⟩
    · refine ⟨tr₁, y, tr₂ ++ [x], by rw [List.append_assoc, List.cons_append], hy, ?_⟩
      rw [List.forall_mem_append, List.forall_mem_singleton]
      exact ⟨htr₂, hx⟩

/-- A property that does not hold initially, and that every step from a state with the invariant
    establishes, takes away, or leaves as it is. -/
theorem Run.latch_iff {I P : σ → Prop} (h : Run step s₀ tr s) (hI : I s₀) (hP : ¬P s₀)
    (hstep : ∀ s e o s', I s → step s e = .ok (s', o) →
      I s' ∧ (P s' ↔ sets ⟨s, e, o, s'⟩ ∨ ¬clears ⟨s, e, o, s'⟩ ∧ P s)) :
    P s ↔ HappenedSince sets clears tr := by
  suffices hall : I s ∧ (P s ↔ HappenedSince sets clears tr) from hall.2
  refine h.invariant_trace (P := fun tr s => I s ∧ (P s ↔ HappenedSince sets clears tr)) ?_ ?_
  · exact ⟨hI, iff_of_false hP not_happenedSince_nil⟩
  · rintro tr s e o s' - ⟨hI, hiff⟩ hs
    obtain ⟨hI', hone⟩ := hstep s e o s' hI hs
    exact ⟨hI', by rw [hone, happenedSince_append, hiff]⟩

end CoapBroker
