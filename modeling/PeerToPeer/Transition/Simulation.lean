import PeerToPeer.Transition.Run
import Mathlib.Logic.Relation

namespace PeerToPeer.Transition

open Relation

variable {σ τ ε : Type} {step : σ → ε → Option σ} {R : τ → τ → Prop} {view : σ → τ}

/-- The simulation rule: where every step is seen as a run of the abstract relation, so is every
run. -/
theorem run_reach (Inv : σ → Prop)
    (hstep : ∀ s e s', Inv s → step s e = some s' →
      Inv s' ∧ ReflTransGen R (view s) (view s'))
    {s t : σ} {es : List ε} (hs : Inv s) (hrun : run step s es = some t) :
    Inv t ∧ ReflTransGen R (view s) (view t) := by
  induction es generalizing s with
  | nil =>
    obtain rfl := Option.some.inj hrun
    exact ⟨hs, .refl⟩
  | cons e es ih =>
    obtain ⟨s', he, h⟩ := run_cons.mp hrun
    obtain ⟨hs', hreach⟩ := hstep s e s' hs he
    obtain ⟨ht, hrest⟩ := ih hs' h
    exact ⟨ht, hreach.trans hrest⟩

/-- What every step of a relation preserves holds wherever the relation leads. -/
theorem reach_invariant {P : τ → Prop} (hstep : ∀ a b, P a → R a b → P b) {a b : τ} (ha : P a)
    (h : ReflTransGen R a b) : P b := by
  induction h with
  | refl => exact ha
  | tail _ hlast ih => exact hstep _ _ ih hlast

end PeerToPeer.Transition
