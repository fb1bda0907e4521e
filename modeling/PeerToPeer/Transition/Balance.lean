import PeerToPeer.Transition.Run
import Mathlib.Algebra.Order.Group.Multiset

namespace PeerToPeer.Transition

variable {σ ε α : Type} {step : σ → ε → Option σ}

/-- The balance rule: where every step moves items from `right` to `left`, but for those it gains
and those it loses, a run does so too. -/
theorem run_balance {P : ε → Prop} {gain loss : σ → ε → List α} (Inv : σ → Prop)
    (left right : σ → Multiset α)
    (hstep : ∀ s e s', Inv s → P e → step s e = some s' →
      Inv s' ∧ left s' + loss s e + right s = left s + gain s e + right s')
    {s t : σ} {es : List ε} (hs : Inv s) (he : ∀ e ∈ es, P e) (hrun : run step s es = some t) :
    left t + collect step loss s es + right s = left s + collect step gain s es + right t := by
  induction es generalizing s with
  | nil =>
    obtain rfl := Option.some.inj hrun
    rfl
  | cons e es ih =>
    obtain ⟨s', h, hrest⟩ := run_cons.mp hrun
    obtain ⟨hs', hhead⟩ := hstep s e s' hs (he e List.mem_cons_self) h
    have htail := ih hs' (fun e' he' => he e' (List.mem_cons_of_mem e he')) hrest
    simp only [collect, h, ← Multiset.coe_add]
    refine add_right_cancel (b := right s') ?_
    calc left t + (↑(loss s e) + ↑(collect step loss s' es)) + right s + right s'
        = (left t + collect step loss s' es + right s') + (loss s e + right s) := by ac_rfl
      _ = (left s' + collect step gain s' es + right t) + (loss s e + right s) := by rw [htail]
      _ = (left s' + loss s e + right s) + (collect step gain s' es + right t) := by ac_rfl
      _ = (left s + gain s e + right s') + (collect step gain s' es + right t) := by rw [hhead]
      _ = left s + (↑(gain s e) + ↑(collect step gain s' es)) + right t + right s' := by ac_rfl

end PeerToPeer.Transition
