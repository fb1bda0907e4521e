import Mathlib.Data.List.Chain
import Mathlib.Data.List.Nodup
import Mathlib.Order.Basic

namespace PeerToPeer.Transition

variable {V : Type} (R : V → V → Prop)

/-- A walk along `R`, latest vertex first, that never turns straight back. -/
inductive Onward : List V → Prop where
  | nil : Onward []
  | start (v : V) : Onward [v]
  | next {u v : V} {rest : List V} (hw : Onward (u :: rest)) (hstep : R u v)
      (hturn : ∀ t ∈ rest.head?, v ≠ t) : Onward (v :: u :: rest)

/-- A directed cycle through different vertices, in the order it is walked. -/
structure Cycle (c : List V) : Prop where
  nodup : c.Nodup
  chain : c.IsChain R
  closes : ∀ u ∈ c.getLast?, ∀ w ∈ c.head?, R u w

variable {R}

/-- Where every step goes up, nothing is walked around. -/
theorem Cycle.eq_nil [Preorder V] (hup : ∀ u w, R u w → u < w) {c : List V} (h : Cycle R c) :
    c = [] := by
  cases c with
  | nil => rfl
  | cons a l =>
    exfalso
    have hchain : (a :: l).IsChain (· < ·) := h.chain.imp hup
    have hsorted : (a :: l).Pairwise (· < ·) := List.isChain_iff_pairwise.mp hchain
    have hlast : (a :: l).getLast? = some ((a :: l).getLast (List.cons_ne_nil a l)) :=
      List.getLast?_eq_some_getLast _
    have hback := hup _ _ (h.closes _ hlast a rfl)
    rcases List.mem_cons.mp (List.getLast_mem (List.cons_ne_nil a l)) with heq | hmem
    · rw [heq] at hback
      exact lt_irrefl a hback
    · exact lt_irrefl a ((List.rel_of_pairwise_cons hsorted hmem).trans hback)

theorem Onward.chain {l : List V} (h : Onward R l) : l.IsChain fun a b => R b a := by
  induction h with
  | nil => exact List.isChain_nil
  | start v => exact List.isChain_singleton v
  | next hw hstep hturn ih => exact List.isChain_cons_cons.mpr ⟨hstep, ih⟩

/-- The part of a walk since its last visit to `w` is a cycle when the walk returns to `w`. -/
theorem cycle_of_return (xs : List V) {ys : List V} {u w : V}
    (hchain : (u :: xs ++ w :: ys).IsChain fun a b => R b a)
    (hnodup : (u :: xs ++ w :: ys).Nodup) (hback : R u w) : Cycle R (u :: xs ++ [w]).reverse := by
  refine ⟨?_, ?_, ?_⟩
  · rw [List.nodup_reverse]
    have happ : u :: xs ++ w :: ys = (u :: xs ++ [w]) ++ ys := by simp
    rw [happ] at hnodup
    exact (List.nodup_append.mp hnodup).1
  · rw [List.isChain_reverse]
    exact (List.isChain_split.mp hchain).1
  · intro a ha b hb
    rw [List.getLast?_reverse, List.cons_append, List.head?_cons, Option.mem_some_iff] at ha
    rw [List.reverse_append, List.reverse_singleton, List.singleton_append, List.head?_cons,
      Option.mem_some_iff] at hb
    subst ha hb
    exact hback

/-- Where all cycles are short, a walk that never turns straight back repeats no vertex. -/
theorem Onward.nodup {l : List V} (hirr : ∀ v, ¬ R v v)
    (hno : ∀ c, Cycle R c → c.length < 3) (h : Onward R l) : l.Nodup := by
  induction h with
  | nil => exact List.nodup_nil
  | start v => exact List.nodup_singleton v
  | @next u v rest hw hstep hturn ih =>
    rw [List.nodup_cons]
    refine ⟨?_, ih⟩
    intro hv
    rcases List.mem_cons.mp hv with rfl | hv
    · exact hirr v hstep
    · obtain ⟨xs, ys, rfl⟩ := List.append_of_mem hv
      have hcycle := cycle_of_return xs hw.chain ih hstep
      have hlen := hno _ hcycle
      cases xs with
      | nil => exact hturn v rfl rfl
      | cons x xs =>
        simp only [List.length_reverse, List.length_append, List.length_cons] at hlen
        omega

end PeerToPeer.Transition
