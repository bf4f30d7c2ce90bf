import Mathlib.Logic.Relation
import Mathlib.Tactic

/-!
# Two threads on a shared state

A thread `τ` takes steps on a shared state `σ`, each of which may fail, until it is done. Two
threads take their steps in any order (`Moves`); all of their interleavings end, without a
failure, in states with a property (`Ends`).

Most steps of a thread only read the shared state, and what it writes, it writes by its last
step. A thread that runs alone then stays in a set of states `V` until it commits to a shared
state in `C` (`Runs`). From this for each of two threads, and from what the one comes to when
the other has committed, follows what their interleavings come to (`Ends.of_runs`): the calls
take effect one after the other.

Conversely, one thread may stop anywhere and let the other run (`Ends.overtake`).
-/

namespace CoapBroker.Interleave

variable {σ τ φ : Type*}

/-- The shared state, and what the two threads are about to do. -/
structure Config (σ τ : Type*) where
  shared : σ
  left : τ
  right : τ

/-- The same, with the threads exchanged. -/
def Config.swap (k : Config σ τ) : Config σ τ := ⟨k.shared, k.right, k.left⟩

variable (step : σ → τ → Except φ (σ × τ)) (done : τ → Prop)

/-- A thread takes a step on its own. -/
def Alone (x y : σ × τ) : Prop := ¬done x.2 ∧ step x.1 x.2 = .ok y

/-- One of the two threads takes a step. -/
inductive Moves : Config σ τ → Config σ τ → Prop
  | left {s s' : σ} {t t' u : τ} : Alone step done (s, t) (s', t') → Moves ⟨s, t, u⟩ ⟨s', t', u⟩
  | right {s s' : σ} {t u u' : τ} : Alone step done (s, u) (s', u') → Moves ⟨s, t, u⟩ ⟨s', t, u'⟩

/-- The next step of one of the two threads fails. -/
def Faulty (k : Config σ τ) : Prop :=
  ∃ f, ¬done k.left ∧ step k.shared k.left = .error f ∨
    ¬done k.right ∧ step k.shared k.right = .error f

/-- All interleavings end, none of them fails, and what they end in has the property. -/
inductive Ends (Q : σ → Prop) : Config σ τ → Prop
  | intro {k : Config σ τ} : ¬Faulty step done k → (done k.left → done k.right → Q k.shared) →
    (∀ k', Moves step done k k' → Ends Q k') → Ends Q k

/-- On its own in `s`, the thread goes through `V`, without changing `s`, and its last step is
    to `C`. -/
inductive Runs (s : σ) (V : τ → Prop) (C : σ → Prop) : τ → Prop
  | commit {t t' : τ} {s' : σ} : V t → ¬done t → step s t = .ok (s', t') → done t' → C s' →
    Runs s V C t
  | next {t t' : τ} : V t → ¬done t → step s t = .ok (s, t') → Runs s V C t' → Runs s V C t

/-- On its own in `s`, the thread goes through `V`, without changing `s`. -/
def Silent (s : σ) (V : τ → Prop) : τ → τ → Prop :=
  Relation.ReflTransGen fun t t' => V t ∧ ¬done t ∧ step s t = .ok (s, t')

variable {step done} {s s₁ s₂ : σ} {t t₁ t₂ u u₁ : τ} {V W : τ → Prop} {C D Q : σ → Prop}

/-! ## Moves -/

theorem Moves.swap {k k' : Config σ τ} (h : Moves step done k k') :
    Moves step done k.swap k'.swap := by
  cases h with
  | left h => exact .right h
  | right h => exact .left h

theorem faulty_swap {k : Config σ τ} (h : Faulty step done k.swap) : Faulty step done k :=
  let ⟨f, h⟩ := h
  ⟨f, h.symm⟩

/-- The threads may be exchanged. -/
theorem Ends.swap {k : Config σ τ} (h : Ends step done Q k) : Ends step done Q k.swap := by
  induction h with
  | intro hf hq _ ih =>
    exact .intro (fun h => hf (faulty_swap h)) (fun hl hr => hq hr hl) fun k' hk' =>
      ih k'.swap hk'.swap

theorem Ends.mono {k : Config σ τ} (h : Ends step done C k) (hC : ∀ s, C s → D s) :
    Ends step done D k := by
  induction h with
  | intro hf hc _ ih => exact .intro hf (fun hl hr => hC _ (hc hl hr)) ih

/-- What all interleavings come to, they come to wherever they are. -/
theorem Ends.of_moves {k k' : Config σ τ} (h : Ends step done Q k)
    (hk : Relation.ReflTransGen (Moves step done) k k') : Ends step done Q k' := by
  induction hk with
  | refl => exact h
  | tail _ hm ih =>
    cases ih with
    | intro _ _ hnext => exact hnext _ hm

theorem Ends.not_faulty {k : Config σ τ} (h : Ends step done Q k) : ¬Faulty step done k := by
  cases h with
  | intro hf _ _ => exact hf

theorem Ends.final {k : Config σ τ} (h : Ends step done Q k) (hl : done k.left)
    (hr : done k.right) : Q k.shared := by
  cases h with
  | intro _ hq _ => exact hq hl hr

/-! ## One thread -/

/-- The steps of the left thread while the right one waits. -/
theorem moves_left (h : Relation.ReflTransGen (Alone step done) (s₁, t₁) (s₂, t₂)) (u : τ) :
    Relation.ReflTransGen (Moves step done) ⟨s₁, t₁, u⟩ ⟨s₂, t₂, u⟩ :=
  Relation.ReflTransGen.lift (fun x : σ × τ => (⟨x.1, x.2, u⟩ : Config σ τ))
    (fun _ _ h => Moves.left h) _ _ h

/-- The steps of the right thread while the left one waits. -/
theorem moves_right (t : τ) (h : Relation.ReflTransGen (Alone step done) (s₁, t₁) (s₂, t₂)) :
    Relation.ReflTransGen (Moves step done) ⟨s₁, t, t₁⟩ ⟨s₂, t, t₂⟩ :=
  Relation.ReflTransGen.lift (fun x : σ × τ => (⟨x.1, t, x.2⟩ : Config σ τ))
    (fun _ _ h => Moves.right h) _ _ h

/-- The left thread stops where it may still go on, the right one runs, and the left one goes
    on from there. -/
theorem Ends.overtake (h : Ends step done Q ⟨s, t, u⟩)
    (ht : Relation.ReflTransGen (Alone step done) (s, t) (s, t₁))
    (hu : Relation.ReflTransGen (Alone step done) (s, u) (s₁, u₁)) :
    Ends step done Q ⟨s₁, t₁, u₁⟩ :=
  (h.of_moves (moves_left ht u)).of_moves (moves_right t₁ hu)

theorem Silent.alone (h : Silent step done s V t t₁) :
    Relation.ReflTransGen (Alone step done) (s, t) (s, t₁) :=
  Relation.ReflTransGen.lift (fun t => (s, t)) (fun _ _ h => h.2) _ _ h

/-- A step that changes nothing, and then others. -/
theorem Silent.head (hv : V t) (ht : ¬done t) (hs : step s t = .ok (s, t₁))
    (h : Silent step done s V t₁ t₂) : Silent step done s V t t₂ :=
  Relation.ReflTransGen.head ⟨hv, ht, hs⟩ h

/-- A thread that goes on to one that commits. -/
theorem Silent.runs (h : Silent step done s V t t₁) (hV : ∀ t, V t → W t)
    (h₁ : Runs step done s W C t₁) : Runs step done s W C t := by
  induction h using Relation.ReflTransGen.head_induction_on with
  | refl => exact h₁
  | head hs _ ih => exact .next (hV _ hs.1) hs.2.1 hs.2.2 ih

/-- A thread that goes on until it is done, and commits to nothing. -/
theorem Silent.runs_done (h : Silent step done s V t t₁) (ht : ¬done t) (ht₁ : done t₁)
    (hV : ∀ t, V t → W t) (hC : C s) : Runs step done s W C t := by
  induction h using Relation.ReflTransGen.head_induction_on with
  | refl => exact absurd ht₁ ht
  | @head u v hs _ ih =>
    by_cases hv : done v
    · exact .commit (hV _ hs.1) hs.2.1 hs.2.2 hv hC
    · exact .next (hV _ hs.1) hs.2.1 hs.2.2 (ih hv)

theorem Runs.mono (h : Runs step done s V C t) (hV : ∀ t, V t → W t) (hC : ∀ s, C s → D s) :
    Runs step done s W D t := by
  induction h with
  | commit hv hd hs hd' hc => exact .commit (hV _ hv) hd hs hd' (hC _ hc)
  | next hv hd hs _ ih => exact .next (hV _ hv) hd hs ih

/-- A thread that commits does so when it runs alone. -/
theorem Runs.exists_alone (h : Runs step done s V C t) :
    ∃ s' t', Relation.ReflTransGen (Alone step done) (s, t) (s', t') ∧ done t' ∧ C s' := by
  induction h with
  | commit _ hd hs hd' hc => exact ⟨_, _, .single ⟨hd, hs⟩, hd', hc⟩
  | next _ hd hs _ ih =>
    obtain ⟨s', t', hr, hd', hc⟩ := ih
    exact ⟨s', t', .head ⟨hd, hs⟩ hr, hd', hc⟩

/-! ## Two threads -/

/-- When both threads are done, that is the end. -/
theorem Ends.of_done (ht : done t) (hu : done u) (hq : Q s) : Ends step done Q ⟨s, t, u⟩ := by
  refine .intro ?_ (fun _ _ => hq) fun k' hk' => ?_
  · rintro ⟨f, ⟨h, -⟩ | ⟨h, -⟩⟩
    · exact h ht
    · exact h hu
  · cases hk' with
    | left h => exact absurd ht h.1
    | right h => exact absurd hu h.1

/-- When the right thread is done, the left one takes the next step. -/
theorem Ends.of_step_left (hu : done u) (ht : ¬done t) (hs : step s t = .ok (s₁, t₁))
    (h : Ends step done Q ⟨s₁, t₁, u⟩) : Ends step done Q ⟨s, t, u⟩ := by
  refine .intro ?_ (fun hl => absurd hl ht) fun k' hk' => ?_
  · rintro ⟨f, ⟨-, hf⟩ | ⟨hr, -⟩⟩
    · cases hs.symm.trans hf
    · exact hr hu
  · cases hk' with
    | left ha =>
      cases hs.symm.trans ha.2
      exact h
    | right ha => exact absurd hu ha.1

/-- When neither is done, one of them takes the next step. -/
theorem Ends.of_steps (ht : ¬done t) (hs : step s t = .ok (s₁, t₁))
    (hs' : step s u = .ok (s₂, u₁)) (h : Ends step done Q ⟨s₁, t₁, u⟩)
    (h' : Ends step done Q ⟨s₂, t, u₁⟩) : Ends step done Q ⟨s, t, u⟩ := by
  refine .intro ?_ (fun hl => absurd hl ht) fun k' hk' => ?_
  · rintro ⟨f, ⟨-, hf⟩ | ⟨-, hf⟩⟩
    · cases hs.symm.trans hf
    · cases hs'.symm.trans hf
  · cases hk' with
    | left ha =>
      cases hs.symm.trans ha.2
      exact h
    | right ha =>
      cases hs'.symm.trans ha.2
      exact h'

/-- When the right thread is done, the left one runs alone. -/
theorem Ends.of_runs_left (h : Runs step done s V Q t) (hu : done u) :
    Ends step done Q ⟨s, t, u⟩ := by
  induction h with
  | commit _ ht hs ht' hq => exact .of_step_left hu ht hs (.of_done ht' hu hq)
  | next _ ht hs _ ih => exact .of_step_left hu ht hs ih

theorem Ends.of_runs_right (h : Runs step done s V Q u) (ht : done t) :
    Ends step done Q ⟨s, t, u⟩ :=
  (Ends.of_runs_left h ht).swap

/-- Two threads of which the first to commit leaves the other one such that it comes to `Q` on
    its own. -/
theorem Ends.of_runs (ht : Runs step done s V C t) (hu : Runs step done s W D u)
    (hleft : ∀ s' u, C s' → W u → Runs step done s' (fun _ => True) Q u)
    (hright : ∀ s' t, D s' → V t → Runs step done s' (fun _ => True) Q t) :
    Ends step done Q ⟨s, t, u⟩ := by
  -- each step is one less for a thread, while the other has as many as before
  induction ht generalizing u with
  | commit hv htd hs htd' hc =>
    induction hu with
    | commit hw _ hs' hud' hd =>
      exact .of_steps htd hs hs' (.of_runs_right (hleft _ _ hc hw) htd')
        (.of_runs_left (hright _ _ hd hv) hud')
    | next hw _ hs' _ ih =>
      exact .of_steps htd hs hs' (.of_runs_right (hleft _ _ hc hw) htd') ih
  | next hv htd hs _ ih =>
    have hu' := hu
    induction hu with
    | commit hw _ hs' hud' hd =>
      exact .of_steps htd hs hs' (ih hu') (.of_runs_left (hright _ _ hd hv) hud')
    | next hw _ hs' hu'' ih' => exact .of_steps htd hs hs' (ih hu') (ih' hu'')

end CoapBroker.Interleave
