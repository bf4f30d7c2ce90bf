import Mathlib.Data.List.Basic
import Mathlib.Tactic

/-!
# Runs of a program that may fail

A program state `σ` taking, on an event of type `ε`, a step that either fails
with a fault of type `φ` or gives the next state and an output of type `ω`. A
run (`Run`) is a sequence of steps none of which failed, recorded transition
by transition; a state is reachable when some run ends in it.

* `Run.invariant`: what holds initially and is preserved by every step holds
  at the end of every run.
* `Run.invariant_trace`: the same for properties of the state and of the
  transitions so far, i.e., of the history.
* `Run.forall_dst_iff`: every state of a run has a property exactly if every step meets
  a condition; `Run.forall_step_iff` is the same for a property of the steps.
* `Run.src_of_mem`: every recorded transition starts at the end of a shorter
  run, and is a step.
* `execTrace` and `execRun`: runs computed from a list of events (`Run.of_execTrace`,
  `Run.of_execRun`).
* `execTrace_simulates`: a program does what a total one does if every step does;
  `execTrace_bisimulates`: two programs do the same if every step does.
-/

namespace CoapBroker

variable {σ ε ω φ : Type*}

/-- A step of a run, as it was observed. -/
structure Transition (σ ε ω : Type*) where
  /-- The state before the step. -/
  src : σ
  /-- The event. -/
  ev : ε
  /-- The output. -/
  out : ω
  /-- The state after the step. -/
  dst : σ

variable (step : σ → ε → Except φ (σ × ω))

/-- The runs from `s₀`: the transitions taken, in order, and the state reached. -/
inductive Run (s₀ : σ) : List (Transition σ ε ω) → σ → Prop
  | nil : Run s₀ [] s₀
  | snoc {tr : List (Transition σ ε ω)} {s s' : σ} {e : ε} {o : ω} :
    Run s₀ tr s → step s e = .ok (s', o) → Run s₀ (tr ++ [⟨s, e, o, s'⟩]) s'

/-- The states some run from `s₀` ends in. -/
def Reachable (s₀ s : σ) : Prop := ∃ tr, Run step s₀ tr s

variable {step} {s₀ s : σ} {tr : List (Transition σ ε ω)}

theorem Run.reachable (h : Run step s₀ tr s) : Reachable step s₀ s := ⟨tr, h⟩

theorem Reachable.init : Reachable step s₀ s₀ := ⟨[], .nil⟩

/-- A property of the state and of its history that holds initially and is
    preserved by every step holds at the end of every run. -/
theorem Run.invariant_trace {P : List (Transition σ ε ω) → σ → Prop} (h : Run step s₀ tr s)
    (init : P [] s₀)
    (pres : ∀ tr s e o s', Run step s₀ tr s → P tr s → step s e = .ok (s', o) →
      P (tr ++ [⟨s, e, o, s'⟩]) s') : P tr s := by
  induction h with
  | nil => exact init
  | snoc hr hs ih => exact pres _ _ _ _ _ hr ih hs

/-- A property that holds initially and is preserved by every step holds at the
    end of every run. -/
theorem Run.invariant {P : σ → Prop} (h : Run step s₀ tr s) (init : P s₀)
    (pres : ∀ s e o s', P s → step s e = .ok (s', o) → P s') : P s :=
  h.invariant_trace (P := fun _ s => P s) init fun _ _ _ _ _ _ hP hs => pres _ _ _ _ hP hs

theorem Reachable.invariant {P : σ → Prop} (h : Reachable step s₀ s) (init : P s₀)
    (pres : ∀ s e o s', P s → step s e = .ok (s', o) → P s') : P s :=
  let ⟨_, hr⟩ := h
  hr.invariant init pres

/-- A recorded transition is a step from the end of a shorter run. -/
theorem Run.src_of_mem (h : Run step s₀ tr s) {t : Transition σ ε ω} (ht : t ∈ tr) :
    (∃ tr', tr' ++ [t] <+: tr ∧ Run step s₀ tr' t.src) ∧ step t.src t.ev = .ok (t.dst, t.out) := by
  induction h with
  | nil => exact absurd ht List.not_mem_nil
  | @snoc tr s s' e o hr hs ih =>
    rcases List.mem_append.1 ht with ht | ht
    · obtain ⟨⟨tr', hp, hr'⟩, hst⟩ := ih ht
      exact ⟨⟨tr', hp.trans (List.prefix_append _ _), hr'⟩, hst⟩
    · rw [List.mem_singleton.1 ht]
      exact ⟨⟨tr, List.prefix_refl _, hr⟩, hs⟩

theorem Run.reachable_of_mem (h : Run step s₀ tr s) {t : Transition σ ε ω} (ht : t ∈ tr) :
    Reachable step s₀ t.src :=
  let ⟨⟨_, _, hr⟩, _⟩ := h.src_of_mem ht
  hr.reachable

theorem Run.step_of_mem (h : Run step s₀ tr s) {t : Transition σ ε ω} (ht : t ∈ tr) :
    step t.src t.ev = .ok (t.dst, t.out) :=
  (h.src_of_mem ht).2

theorem Reachable.next {s' : σ} {e : ε} {o : ω} (h : Reachable step s₀ s)
    (hs : step s e = .ok (s', o)) : Reachable step s₀ s' :=
  let ⟨_, hr⟩ := h
  ⟨_, hr.snoc hs⟩

/-- A computation that is found to give a result with a property does so. -/
theorem exists_ok_of_any {α : Type*} {x : Except φ α} {p : α → Prop} [DecidablePred p]
    (h : (x.toOption.any fun a => p a) = true) : ∃ a, x = .ok a ∧ p a := by
  rcases x with f | a
  · cases h
  · exact ⟨a, rfl, of_decide_eq_true h⟩

/-- Suppose that a step from a state with the property leads to one with it exactly if the
    step meets a condition. Then all states of a run have the property exactly if all its steps
    meet the condition. -/
theorem Run.forall_dst_iff {I P : σ → Prop} {C : σ → ε → Prop} (h : Run step s₀ tr s)
    (hI : I s₀) (hP : P s₀)
    (hstep : ∀ s e o s', I s → step s e = .ok (s', o) → I s' ∧ (P s → (P s' ↔ C s e))) :
    (∀ x ∈ tr, P x.dst) ↔ ∀ x ∈ tr, C x.src x.ev := by
  -- the last state has the property if all states have it
  suffices hall : I s ∧ ((∀ x ∈ tr, P x.dst) → P s) ∧
      ((∀ x ∈ tr, P x.dst) ↔ ∀ x ∈ tr, C x.src x.ev) from hall.2.2
  refine h.invariant_trace (P := fun tr s => I s ∧ ((∀ x ∈ tr, P x.dst) → P s) ∧
    ((∀ x ∈ tr, P x.dst) ↔ ∀ x ∈ tr, C x.src x.ev)) ?_ ?_
  · exact ⟨hI, fun _ => hP, iff_of_true (fun x hx => absurd hx List.not_mem_nil)
      fun x hx => absurd hx List.not_mem_nil⟩
  · rintro tr s e o s' - ⟨hI, hlast, hiff⟩ hs
    obtain ⟨hI', hone⟩ := hstep s e o s' hI hs
    refine ⟨hI', fun hall => ?_, ?_⟩
    · exact hall ⟨s, e, o, s'⟩ (List.mem_append_right _ (List.mem_singleton_self _))
    · simp only [List.forall_mem_append, List.forall_mem_singleton]
      constructor
      · rintro ⟨hall, hP'⟩
        exact ⟨hiff.1 hall, (hone (hlast hall)).1 hP'⟩
      · rintro ⟨hall, hC⟩
        have hP := hiff.2 hall
        exact ⟨hP, (hone (hlast hP)).2 hC⟩

/-- Suppose that a step from a state with an invariant does what it should exactly if it meets a
    condition, and that it keeps the invariant then. Then all steps of a run do what they should
    exactly if they all meet the condition. -/
theorem Run.forall_step_iff {I : σ → Prop} {P C : σ → ε → Prop} (h : Run step s₀ tr s) (hI : I s₀)
    (hstep : ∀ s e o s', I s → step s e = .ok (s', o) → (P s e ↔ C s e) ∧ (C s e → I s')) :
    (∀ x ∈ tr, P x.src x.ev) ↔ ∀ x ∈ tr, C x.src x.ev := by
  suffices hall : ((∀ x ∈ tr, C x.src x.ev) → I s) ∧
      ((∀ x ∈ tr, P x.src x.ev) ↔ ∀ x ∈ tr, C x.src x.ev) from hall.2
  refine h.invariant_trace (P := fun tr s => ((∀ x ∈ tr, C x.src x.ev) → I s) ∧
    ((∀ x ∈ tr, P x.src x.ev) ↔ ∀ x ∈ tr, C x.src x.ev)) ?_ ?_
  · exact ⟨fun _ => hI, iff_of_true (fun x hx => absurd hx List.not_mem_nil)
      fun x hx => absurd hx List.not_mem_nil⟩
  · rintro tr s e o s' - ⟨hinv, hiff⟩ hs
    simp only [List.forall_mem_append, List.forall_mem_singleton]
    refine ⟨fun ⟨hall, hC⟩ => (hstep s e o s' (hinv hall) hs).2 hC, ?_⟩
    constructor
    · rintro ⟨hall, hP⟩
      have hC := hiff.1 hall
      exact ⟨hC, (hstep s e o s' (hinv hC) hs).1.1 hP⟩
    · rintro ⟨hall, hC⟩
      exact ⟨hiff.2 hall, (hstep s e o s' (hinv hall) hs).1.2 hC⟩

/-! ## Computed runs -/

variable (step) in
/-- The steps some events lead to, one after the other, and the state they end in, unless
    one fails. -/
def execTrace (s : σ) : List ε → Except φ (List (Transition σ ε ω) × σ)
  | [] => .ok ([], s)
  | e :: es => match step s e with
    | .ok (s', o) => (execTrace s' es).map fun (tr, s'') => (⟨s, e, o, s'⟩ :: tr, s'')
    | .error f => .error f

variable (step) in
/-- The state some events lead to. -/
def execRun (s : σ) (es : List ε) : Except φ σ := (execTrace step s es).map Prod.snd

/-- Computing is running: the run goes on with the events, in order. -/
theorem Run.of_execTrace {s' : σ} {es : List ε} {tr' : List (Transition σ ε ω)}
    (h : Run step s₀ tr s) (he : execTrace step s es = .ok (tr', s')) :
    Run step s₀ (tr ++ tr') s' ∧ tr'.map Transition.ev = es := by
  induction es generalizing s tr tr' with
  | nil =>
    cases he
    exact ⟨by rw [List.append_nil]; exact h, rfl⟩
  | cons e es ih =>
    rw [execTrace] at he
    rcases hs : step s e with f | ⟨s₁, o⟩ <;> rw [hs] at he
    · cases he
    dsimp only at he
    rcases hes : execTrace step s₁ es with f | ⟨tr₁, s₂⟩ <;> rw [hes] at he
    · cases he
    · cases he
      obtain ⟨hr, hev⟩ := ih (h.snoc hs) hes
      rw [List.append_assoc] at hr
      exact ⟨hr, by rw [List.map_cons, hev]⟩

theorem Run.of_execRun {s' : σ} {es : List ε} (h : Run step s₀ tr s)
    (he : execRun step s es = .ok s') :
    ∃ tr', Run step s₀ (tr ++ tr') s' ∧ tr'.map Transition.ev = es := by
  rw [execRun] at he
  rcases hes : execTrace step s es with f | ⟨tr', s₁⟩ <;> rw [hes] at he
  · cases he
  · cases he
    exact ⟨tr', h.of_execTrace hes⟩

theorem Reachable.of_execRun {s' : σ} {es : List ε} (h : Reachable step s₀ s)
    (he : execRun step s es = .ok s') : Reachable step s₀ s' :=
  let ⟨_, hr⟩ := h
  let ⟨_, hr', _⟩ := hr.of_execRun he
  hr'.reachable

/-! ## Simulation -/

section

variable {τ ρ : Type*} (spec : τ → ε → τ × ρ)

/-- The state and the results of a total program after some events. -/
def specRun (t : τ) : List ε → τ × List ρ
  | [] => (t, [])
  | e :: es => ((specRun (spec t e).1 es).1, (spec t e).2 :: (specRun (spec t e).1 es).2)

variable {spec} {R : σ → τ → Prop} {A : σ → ω → ρ → Prop}

/-- If every step between related states goes through, leads to related states and gives
    answers that fit, then so does every run. -/
theorem execTrace_simulates
    (hstep : ∀ s t e, R s t → ∃ s' o, step s e = .ok (s', o) ∧ R s' (spec t e).1 ∧
      A s' o (spec t e).2) {t : τ} (h : R s t) (es : List ε) :
    ∃ tr s', execTrace step s es = .ok (tr, s') ∧ R s' (specRun spec t es).1 ∧
      List.Forall₂ (fun x r => A x.dst x.out r) tr (specRun spec t es).2 := by
  induction es generalizing s t with
  | nil => exact ⟨[], s, rfl, h, .nil⟩
  | cons e es ih =>
    obtain ⟨s', o, hs, hR, hA⟩ := hstep s t e h
    obtain ⟨tr, s'', hes, hR', hall⟩ := ih hR
    refine ⟨⟨s, e, o, s'⟩ :: tr, s'', ?_, hR', .cons hA hall⟩
    rw [execTrace, hs]
    dsimp only
    rw [hes]
    rfl

end

/-- If related states take steps on the same events to related states, then they have runs on
    the same events, related step by step. -/
theorem execTrace_bisimulates {τ ε' ω' φ' : Type*} {step' : τ → ε' → Except φ' (τ × ω')}
    {f : ε' → ε} {R : σ → τ → Prop} {A : σ → ω → τ → ω' → Prop}
    (hstep : ∀ s t e, R s t → ∃ s' o t' o', step s (f e) = .ok (s', o) ∧
      step' t e = .ok (t', o') ∧ R s' t' ∧ A s' o t' o') {t : τ} (h : R s t) (es : List ε') :
    ∃ tr s' tr' t', execTrace step s (es.map f) = .ok (tr, s') ∧
      execTrace step' t es = .ok (tr', t') ∧ R s' t' ∧
      List.Forall₂ (fun x y => R x.dst y.dst ∧ A x.dst x.out y.dst y.out) tr tr' := by
  induction es generalizing s t with
  | nil => exact ⟨[], s, [], t, rfl, rfl, h, .nil⟩
  | cons e es ih =>
    obtain ⟨s₁, o, t₁, o', hs, ht, hR, hA⟩ := hstep s t e h
    obtain ⟨tr, s', tr', t', hes, hes', hR', hall⟩ := ih hR
    refine ⟨⟨s, f e, o, s₁⟩ :: tr, s', ⟨t, e, o', t₁⟩ :: tr', t', ?_, ?_, hR',
      .cons ⟨hR, hA⟩ hall⟩
    · rw [List.map_cons, execTrace, hs]
      dsimp only
      rw [hes]
      rfl
    · rw [execTrace, ht]
      dsimp only
      rw [hes']
      rfl

end CoapBroker
