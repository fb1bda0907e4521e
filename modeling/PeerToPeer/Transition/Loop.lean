import Mathlib.Logic.Basic

namespace PeerToPeer.Transition

variable {σ ρ : Type} {body : σ → σ ⊕ ρ}

/-- At most `fuel` passes of a loop. A pass goes round again or leaves with a result; the number
of passes made comes with it. -/
def passes (body : σ → σ ⊕ ρ) : Nat → σ → Option (ρ × Nat)
  | 0, _ => none
  | fuel + 1, s =>
      match body s with
      | .inl s' => (passes body fuel s').map fun p => (p.1, p.2 + 1)
      | .inr r => some (r, 1)

/-- The termination rule: a loop whose passes decrease a measure leaves, after at most one pass
more than the measure of its start, with whatever satisfies the equation of the loop. -/
theorem passes_total (μ : σ → Nat) (hμ : ∀ s s', body s = .inl s' → μ s' < μ s) (f : σ → ρ)
    (hgo : ∀ s s', body s = .inl s' → f s = f s') (hleave : ∀ s r, body s = .inr r → f s = r)
    {fuel : Nat} {s : σ} (hfuel : μ s < fuel) :
    ∃ n, passes body fuel s = some (f s, n) ∧ n ≤ μ s + 1 := by
  induction fuel generalizing s with
  | zero => exact absurd hfuel (Nat.not_lt_zero _)
  | succ fuel ih =>
    cases hb : body s with
    | inl s' =>
      have hlt := hμ s s' hb
      obtain ⟨n, hn, hle⟩ := ih (s := s') (by omega)
      refine ⟨n + 1, ?_, by omega⟩
      rw [passes, hb, hgo s s' hb]
      dsimp only
      rw [hn]
      rfl
    | inr r =>
      refine ⟨1, ?_, by omega⟩
      rw [passes, hb, hleave s r hb]

end PeerToPeer.Transition
