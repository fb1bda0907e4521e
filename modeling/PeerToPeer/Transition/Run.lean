import Mathlib.Algebra.GroupWithZero.Nat
import Mathlib.Logic.Basic

namespace PeerToPeer.Transition

variable {σ ε : Type} (step : σ → ε → Option σ)

/-- Execute a list of events; `none` as soon as one of them cannot happen. -/
def run : σ → List ε → Option σ
  | s, [] => some s
  | s, e :: es => (step s e).bind fun s' => run s' es

/-- Every step of the run, from the state before it to the state after it, satisfies `Q`. -/
def AllSteps (Q : σ → ε → σ → Prop) : σ → List ε → Prop
  | _, [] => True
  | s, e :: es => ∀ s', step s e = some s' → Q s e s' ∧ AllSteps Q s' es

/-- Every state of the run, the first one included, satisfies `R`. -/
def AllStates (R : σ → Prop) : σ → List ε → Prop
  | s, [] => R s
  | s, e :: es => R s ∧ ∀ s', step s e = some s' → AllStates R s' es

/-- What the steps of the run contribute, in order. -/
def collect {α : Type} (f : σ → ε → List α) : σ → List ε → List α
  | _, [] => []
  | s, e :: es => f s e ++ match step s e with
    | none => []
    | some s' => collect f s' es

variable {step}

theorem AllStates.head {R : σ → Prop} {s : σ} {es : List ε} (h : AllStates step R s es) : R s := by
  cases es with
  | nil => exact h
  | cons e es => exact h.1

@[simp] theorem run_nil (s : σ) : run step s [] = some s := rfl

theorem run_cons {s t : σ} {e : ε} {es : List ε} :
    run step s (e :: es) = some t ↔ ∃ s', step s e = some s' ∧ run step s' es = some t := by
  simp [run, Option.bind_eq_some_iff]

theorem run_append {s t : σ} {es fs : List ε} :
    run step s (es ++ fs) = some t ↔ ∃ u, run step s es = some u ∧ run step u fs = some t := by
  induction es generalizing s with
  | nil => simp
  | cons e es ih =>
    rw [List.cons_append, run_cons]
    constructor
    · rintro ⟨s', hs, h⟩
      obtain ⟨u, hu, ht⟩ := ih.mp h
      exact ⟨u, run_cons.mpr ⟨s', hs, hu⟩, ht⟩
    · rintro ⟨u, hu, ht⟩
      obtain ⟨s', hs, h⟩ := run_cons.mp hu
      exact ⟨s', hs, ih.mpr ⟨u, h, ht⟩⟩

/-- The invariant rule: what every step that satisfies `Q` preserves holds at the end of
every run of such steps. -/
theorem run_invariant {Q : σ → ε → σ → Prop} (Inv : σ → Prop)
    (hstep : ∀ s e s', Inv s → Q s e s' → step s e = some s' → Inv s')
    {s t : σ} {es : List ε} (hs : Inv s) (hq : AllSteps step Q s es)
    (hrun : run step s es = some t) : Inv t := by
  induction es generalizing s with
  | nil =>
    obtain rfl := Option.some.inj hrun
    exact hs
  | cons e es ih =>
    obtain ⟨s', he, h⟩ := run_cons.mp hrun
    obtain ⟨hq₁, hq₂⟩ := hq s' he
    exact ih (hstep s e s' hs hq₁ he) hq₂ h

theorem allSteps_congr {Q Q' : σ → ε → σ → Prop}
    (h : ∀ s e s', step s e = some s' → (Q s e s' ↔ Q' s e s')) (s : σ) (es : List ε) :
    AllSteps step Q s es ↔ AllSteps step Q' s es := by
  induction es generalizing s with
  | nil => exact Iff.rfl
  | cons e es ih =>
    exact forall_congr' fun s' => forall_congr' fun hs => and_congr (h s e s' hs) (ih s')

/-- A property that a step keeps exactly when it satisfies `Q` holds throughout a run exactly
when all steps do. -/
theorem allStates_iff_allSteps {P : ε → Prop} {Q : σ → ε → σ → Prop} {R : σ → Prop}
    (Inv : σ → Prop)
    (hstep : ∀ s e s', Inv s → R s → P e → step s e = some s' → Inv s' ∧ (R s' ↔ Q s e s'))
    {s : σ} {es : List ε} (hs : Inv s) (hr : R s) (he : ∀ e ∈ es, P e) :
    AllStates step R s es ↔ AllSteps step Q s es := by
  induction es generalizing s with
  | nil => exact iff_of_true hr trivial
  | cons e es ih =>
    have hes : ∀ e' ∈ es, P e' := fun e' h => he e' (List.mem_cons_of_mem e h)
    constructor
    · rintro ⟨-, hall⟩ s' h
      obtain ⟨hs', hiff⟩ := hstep s e s' hs hr (he e List.mem_cons_self) h
      have hr' : R s' := (hall s' h).head
      exact ⟨hiff.mp hr', (ih hs' hr' hes).mp (hall s' h)⟩
    · intro hall
      refine ⟨hr, ?_⟩
      intro s' h
      obtain ⟨hs', hiff⟩ := hstep s e s' hs hr (he e List.mem_cons_self) h
      obtain ⟨hq, hrest⟩ := hall s' h
      exact (ih hs' (hiff.mpr hq) hes).mpr hrest

theorem allSteps_append {Q : σ → ε → σ → Prop} {s : σ} {es fs : List ε}
    (he : AllSteps step Q s es) (hf : ∀ u, run step s es = some u → AllSteps step Q u fs) :
    AllSteps step Q s (es ++ fs) := by
  induction es generalizing s with
  | nil => exact hf s rfl
  | cons e es ih =>
    intro s' hs
    obtain ⟨hq, he'⟩ := he s' hs
    exact ⟨hq, ih he' fun u hu => hf u (run_cons.mpr ⟨s', hs, hu⟩)⟩

theorem allSteps_of_forall {P : ε → Prop} {es : List ε} (h : ∀ e ∈ es, P e) (s : σ) :
    AllSteps step (fun _ e _ => P e) s es := by
  induction es generalizing s with
  | nil => trivial
  | cons e es ih =>
    intro s' _
    exact ⟨h e (by simp), ih (fun e' he' => h e' (List.mem_cons_of_mem _ he')) s'⟩

/-- The invariant rule for conditions on the events alone. -/
theorem run_induction {P : ε → Prop} (Inv : σ → Prop)
    (hstep : ∀ s e s', Inv s → P e → step s e = some s' → Inv s')
    {s t : σ} {es : List ε} (hs : Inv s) (he : ∀ e ∈ es, P e)
    (hrun : run step s es = some t) : Inv t :=
  run_invariant (Q := fun _ e _ => P e) Inv hstep hs (allSteps_of_forall he s) hrun

/-- The invariant rule for runs that stay within `R`. -/
theorem run_within {P : ε → Prop} {R : σ → Prop} (Inv : σ → Prop)
    (hstep : ∀ s e s', Inv s → R s → P e → step s e = some s' → Inv s')
    {s t : σ} {es : List ε} (hs : Inv s) (hr : AllStates step R s es) (he : ∀ e ∈ es, P e)
    (hrun : run step s es = some t) : Inv t ∧ R t := by
  induction es generalizing s with
  | nil =>
    obtain rfl := Option.some.inj hrun
    exact ⟨hs, hr⟩
  | cons e es ih =>
    obtain ⟨s', h, hrest⟩ := run_cons.mp hrun
    obtain ⟨hr₀, hr'⟩ := hr
    have hs' : Inv s' := hstep s e s' hs hr₀ (he e List.mem_cons_self) h
    exact ih hs' (hr' s' h) (fun e' he' => he e' (List.mem_cons_of_mem e he')) hrest

/-- The cost rule: a measure that no step raises by more than the cost of its event is, after a
run, above what it was by the cost of all events at most. -/
theorem run_cost (size : σ → Nat) (cost : ε → Nat)
    (hstep : ∀ s e s', step s e = some s' → size s' ≤ size s + cost e)
    {s t : σ} {es : List ε} (hrun : run step s es = some t) :
    size t ≤ size s + (es.map cost).sum := by
  induction es generalizing s with
  | nil =>
    obtain rfl := Option.some.inj hrun
    simp
  | cons e es ih =>
    obtain ⟨s', he, h⟩ := run_cons.mp hrun
    have hhead := hstep s e s' he
    have htail := ih h
    rw [List.map_cons, List.sum_cons]
    omega

/-- The descent rule: a measure that every step lowers bounds the length of a run. -/
theorem run_descent {P : ε → Prop} (Inv : σ → Prop) (size : σ → Nat)
    (hstep : ∀ s e s', Inv s → P e → step s e = some s' → Inv s' ∧ size s' < size s)
    {s t : σ} {es : List ε} (hs : Inv s) (he : ∀ e ∈ es, P e) (hrun : run step s es = some t) :
    Inv t ∧ size t + es.length ≤ size s := by
  induction es generalizing s with
  | nil =>
    obtain rfl := Option.some.inj hrun
    exact ⟨hs, Nat.le_refl _⟩
  | cons e es ih =>
    obtain ⟨s', h, hrest⟩ := run_cons.mp hrun
    obtain ⟨hs', hlt⟩ := hstep s e s' hs (he e List.mem_cons_self) h
    obtain ⟨ht, hle⟩ := ih hs' (fun e' he' => he e' (List.mem_cons_of_mem e he')) hrest
    refine ⟨ht, ?_⟩
    rw [List.length_cons]
    omega

/-- The log rule: a list to which every step appends its contribution is, after a run, the
list before it followed by all contributions. -/
theorem run_collect {α : Type} {f : σ → ε → List α} (Inv : σ → Prop) (out : σ → List α)
    (hstep : ∀ s e s', Inv s → step s e = some s' → Inv s' ∧ out s' = out s ++ f s e)
    {s t : σ} {es : List ε} (hs : Inv s) (hrun : run step s es = some t) :
    Inv t ∧ out t = out s ++ collect step f s es := by
  induction es generalizing s with
  | nil =>
    obtain rfl := Option.some.inj hrun
    exact ⟨hs, (List.append_nil _).symm⟩
  | cons e es ih =>
    obtain ⟨s', he, h⟩ := run_cons.mp hrun
    obtain ⟨hs', hout⟩ := hstep s e s' hs he
    obtain ⟨ht, hlog⟩ := ih hs' h
    refine ⟨ht, ?_⟩
    rw [hlog, hout, collect, he, List.append_assoc]

/-- The log rule, with what each step contributes made from a list of items. -/
theorem collect_flatMap {α β : Type} (f : σ → ε → List α) (g : α → List β) (s : σ)
    (es : List ε) :
    collect step (fun s e => (f s e).flatMap g) s es = (collect step f s es).flatMap g := by
  induction es generalizing s with
  | nil => rfl
  | cons e es ih =>
    rw [collect, collect, List.flatMap_append]
    cases step s e with
    | none => rfl
    | some s' =>
      dsimp only
      rw [ih s']

end PeerToPeer.Transition
