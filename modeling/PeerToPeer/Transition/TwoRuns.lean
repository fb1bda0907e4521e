import PeerToPeer.Transition.Run

namespace PeerToPeer.Transition

variable {σ ε ρ φ : Type} (step : σ → ε → Except φ (ρ × σ))

/-- What a run shows its caller: one result for each event, up to the first failure. -/
def trace : σ → List ε → List (Except φ ρ)
  | _, [] => []
  | s, e :: es => match step s e with
    | .error f => [.error f]
    | .ok (r, s') => .ok r :: trace s' es

/-- The state part of a step. -/
def next (s : σ) (e : ε) : Option σ :=
  match step s e with
  | .error _ => none
  | .ok (_, s') => some s'

/-- Two states answer one event alike: by the same failure, or by the same result and again
with related states. -/
def Alike (R : σ → σ → Prop) (s t : σ) (e : ε) : Prop :=
  (∃ f, step s e = .error f ∧ step t e = .error f) ∨
    ∃ r s' t', step s e = .ok (r, s') ∧ step t e = .ok (r, t') ∧ R s' t'

/-- Two states answer one event by different results. -/
def Differ (s t : σ) (e : ε) : Prop :=
  ∃ r r' s' t', step s e = .ok (r, s') ∧ step t e = .ok (r', t') ∧ r ≠ r'

variable {step}

/-- The two-run rule: where related states answer alike exactly the events that satisfy `Q`,
two runs show the same exactly when all their events satisfy it. -/
theorem trace_eq_iff {R : σ → σ → Prop} {Q : σ → ε → Prop}
    (halike : ∀ s t e, R s t → Q s e → Alike step R s t e)
    (hdiffer : ∀ s t e, R s t → ¬ Q s e → Differ step s t e) {s t : σ} (h : R s t)
    (es : List ε) :
    trace step s es = trace step t es ↔ AllSteps (next step) (fun s e _ => Q s e) s es := by
  induction es generalizing s t with
  | nil => simp [trace, AllSteps]
  | cons e es ih =>
    by_cases hq : Q s e
    · rcases halike s t e h hq with ⟨f, hs, ht⟩ | ⟨r, s', t', hs, ht, h'⟩
      · simp [trace, AllSteps, next, hs, ht]
      · simp [trace, AllSteps, next, hs, ht, hq, ih h']
    · obtain ⟨r, r', s', t', hs, ht, hne⟩ := hdiffer s t e h hq
      simp [trace, AllSteps, next, hs, ht, hq, hne]

end PeerToPeer.Transition
