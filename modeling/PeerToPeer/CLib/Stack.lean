import PeerToPeer.CLib.GrowArray
import Mathlib.Order.Bounds.Defs

namespace PeerToPeer.CLib

inductive StackOp (α : Type) where
  | push (x : α)
  | pop
  deriving DecidableEq, Repr

namespace StackOp

variable {α : Type}

/-- One operation on a list with its top at the end, and on the buffer that pops go to. -/
def on (s : List α × α) : StackOp α → List α × α
  | push x => (s.1 ++ [x], s.2)
  | pop => match s.1.getLast? with
    | none => s
    | some x => (s.1.dropLast, x)

def onAll (ops : List (StackOp α)) (s : List α × α) : List α × α := ops.foldl on s

/-- The lengths of the list after each operation. -/
def heights : List (StackOp α) → List α × α → List Nat
  | [], _ => []
  | op :: ops, s => (op.on s).1.length :: heights ops (op.on s)

theorem pop_on_concat (l : List α) (x buf : α) : pop.on (l ++ [x], buf) = (l, x) := by
  simp [on]

end StackOp

/-- The powers of two that are at least `least` and at least every length in `hs`. -/
def Capacities (least : Nat) (hs : List Nat) : Set Nat :=
  {n | (∃ k, n = 2 ^ k) ∧ least ≤ n ∧ ∀ h ∈ hs, h ≤ n}

/-- A length within the capacity asks for nothing more. -/
theorem capacities_within {least cap h : Nat} {hs : List Nat} (hc : IsLeast (Capacities least hs) cap)
    (hle : h ≤ cap) : IsLeast (Capacities least (hs ++ [h])) cap := by
  obtain ⟨⟨hpow, hleast, hall⟩, hmin⟩ := hc
  constructor
  · refine ⟨hpow, hleast, ?_⟩
    intro x hx
    rcases List.mem_append.mp hx with hx | hx
    · exact hall x hx
    · rwa [List.mem_singleton.mp hx]
  · rintro n ⟨hn, hl, hbound⟩
    exact hmin ⟨hn, hl, fun x hx => hbound x (List.mem_append_left _ hx)⟩

/-- One element more than the capacity asks for twice as much. -/
theorem capacities_above {least cap n : Nat} {hs : List Nat} (hc : IsLeast (Capacities least hs) cap)
    (hn : n ∈ Capacities least (hs ++ [cap + 1])) : cap * 2 ≤ n := by
  obtain ⟨⟨⟨k, rfl⟩, -, -⟩, -⟩ := hc
  obtain ⟨⟨j, rfl⟩, -, hbound⟩ := hn
  have hgt : 2 ^ k < 2 ^ j := hbound (2 ^ k + 1) (by simp)
  have hexp : k + 1 ≤ j := (Nat.pow_lt_pow_iff_right (by decide)).mp hgt
  rw [← Nat.pow_succ]
  exact Nat.pow_le_pow_right (by decide) hexp

theorem capacities_doubled {least cap : Nat} {hs : List Nat} (hc : IsLeast (Capacities least hs) cap)
    (hpos : 0 < cap) : IsLeast (Capacities least (hs ++ [cap + 1])) (cap * 2) := by
  constructor
  · obtain ⟨⟨⟨k, hk⟩, hleast, hall⟩, -⟩ := hc
    refine ⟨⟨k + 1, by rw [hk, Nat.pow_succ]⟩, by omega, ?_⟩
    intro x hx
    rcases List.mem_append.mp hx with hx | hx
    · have hle := hall x hx
      omega
    · rw [List.mem_singleton.mp hx]
      omega
  · intro n hn
    exact capacities_above hc hn

namespace GrowArray

variable {α : Type} {size : Nat} [NeZero size] (zero : α)

/-- One operation on an array and the buffer that pops go to. -/
def apply (s : GrowArray α size × α) : StackOp α → Except Fault (GrowArray α size × α)
  | .push x => do
      let a ← s.1.push x
      return (a, s.2)
  | .pop => s.1.pop zero s.2

def applyAll : List (StackOp α) → GrowArray α size × α → Except Fault (GrowArray α size × α)
  | [], s => .ok s
  | op :: ops, s => do
      let s ← apply zero s op
      applyAll ops s

variable {zero}

section Step

variable {s s' : GrowArray α size × α} {op : StackOp α} {f : Fault} {least : Nat} {hs : List Nat}

theorem apply_ok (h : apply zero s op = .ok s') :
    (s'.1.live, s'.2) = op.on (s.1.live, s.2) ∧
      (s'.1.cap = s.1.cap ∨ s'.1.cap = s.1.cap * 2 ∧ s'.1.len = s.1.cap + 1) := by
  cases op with
  | push x =>
    obtain ⟨a, ha, h⟩ := bind_eq_ok.mp h
    obtain rfl := Except.ok.inj h
    have hlive := push_live ha
    have hcap := push_cap ha
    have hlen : a.len = s.1.len + 1 := by
      rw [← live_length, hlive, List.length_append, live_length]
      rfl
    refine ⟨by rw [hlive]; rfl, ?_⟩
    split_ifs at hcap with hfull
    · exact Or.inr ⟨hcap, by rw [hlen, hfull]⟩
    · exact Or.inl hcap
  | pop =>
    by_cases hz : s.1.len = 0
    · have hnil : s.1.live = [] := List.eq_nil_of_length_eq_zero (by rw [live_length, hz])
      have hrun : s.1.pop zero s.2 = .ok s := pop_empty zero s.2 hz
      obtain rfl := Except.ok.inj (hrun.symm.trans h)
      exact ⟨by rw [hnil]; rfl, Or.inl rfl⟩
    · obtain ⟨b, x, hrun, hlive, hcap⟩ := pop_ok zero s.2 hz
      obtain rfl := Except.ok.inj (hrun.symm.trans h)
      exact ⟨by rw [hlive, StackOp.pop_on_concat], Or.inl hcap⟩

theorem apply_fault (h : apply zero s op = .error f) :
    f = .exit 1 ∧ ptrdiffMax < s.1.cap * size * 2 ∧ (op.on (s.1.live, s.2)).1.length = s.1.cap + 1 := by
  cases op with
  | push x =>
    cases hp : s.1.push x with
    | ok a =>
      rw [apply, hp] at h
      cases h
    | error e =>
      rw [apply, hp] at h
      obtain rfl := Except.error.inj h
      obtain ⟨hexit, hfull, hbig⟩ := push_full hp
      exact ⟨hexit, hbig, by simp [StackOp.on, hfull]⟩
  | pop =>
    by_cases hz : s.1.len = 0
    · cases (pop_empty zero s.2 hz).symm.trans h
    · obtain ⟨b, x, hrun, -⟩ := pop_ok zero s.2 hz
      cases hrun.symm.trans h

/-- One operation keeps the capacity the least one for the lengths so far. -/
theorem apply_cap (hc : IsLeast (Capacities least hs) s.1.cap) (h : apply zero s op = .ok s') :
    IsLeast (Capacities least (hs ++ [(op.on (s.1.live, s.2)).1.length])) s'.1.cap := by
  obtain ⟨hon, hcap⟩ := apply_ok h
  have hlen : (op.on (s.1.live, s.2)).1.length = s'.1.len := by rw [← hon, live_length]
  rw [hlen]
  rcases hcap with hcap | ⟨hcap, hfull⟩
  · rw [hcap]
    exact capacities_within hc (hcap ▸ s'.1.len_le_cap)
  · rw [hcap, hfull]
    exact capacities_doubled hc s.1.cap_pos

end Step

/-- Every run refines the stack of lists, at the least capacity for the lengths it went through. -/
theorem applyAll_ok {ops : List (StackOp α)} {s s' : GrowArray α size × α} {least : Nat}
    {hs : List Nat} (hc : IsLeast (Capacities least hs) s.1.cap) (h : applyAll zero ops s = .ok s') :
    (s'.1.live, s'.2) = StackOp.onAll ops (s.1.live, s.2) ∧
      IsLeast (Capacities least (hs ++ StackOp.heights ops (s.1.live, s.2))) s'.1.cap := by
  induction ops generalizing s hs with
  | nil =>
    obtain rfl := Except.ok.inj h
    exact ⟨rfl, by rwa [StackOp.heights, List.append_nil]⟩
  | cons op ops ih =>
    obtain ⟨t, ht, h⟩ := bind_eq_ok.mp h
    obtain ⟨hon, hcap⟩ := ih (apply_cap hc ht) h
    rw [(apply_ok ht).1] at hon hcap
    rw [StackOp.heights, List.append_cons]
    exact ⟨hon, hcap⟩

/-- A run fails only when the lengths it goes through ask for more than a block can have. -/
theorem applyAll_fault {ops : List (StackOp α)} {s : GrowArray α size × α} {least : Nat}
    {hs : List Nat} {f : Fault} (hc : IsLeast (Capacities least hs) s.1.cap)
    (h : applyAll zero ops s = .error f) : f = .exit 1 ∧
      ∀ n ∈ Capacities least (hs ++ StackOp.heights ops (s.1.live, s.2)), ptrdiffMax < n * size := by
  induction ops generalizing s hs with
  | nil => cases h
  | cons op ops ih =>
    cases ht : apply zero s op with
    | error e =>
      rw [applyAll, ht] at h
      obtain rfl := Except.error.inj h
      obtain ⟨hexit, hbig, hlen⟩ := apply_fault ht
      refine ⟨hexit, ?_⟩
      rintro n ⟨hpow, hleast, hbound⟩
      have hdouble : s.1.cap * 2 ≤ n := by
        apply capacities_above hc
        refine ⟨hpow, hleast, ?_⟩
        intro x hx
        apply hbound
        rw [StackOp.heights, hlen, List.append_cons]
        exact List.mem_append_left _ hx
      have hbytes := Nat.mul_le_mul_right size hdouble
      rw [Nat.mul_right_comm] at hbytes
      omega
    | ok t =>
      rw [applyAll, ht] at h
      obtain ⟨hexit, hbound⟩ := ih (apply_cap hc ht) h
      rw [(apply_ok ht).1] at hbound
      refine ⟨hexit, ?_⟩
      intro n hn
      rw [StackOp.heights, List.append_cons] at hn
      exact hbound n hn

end GrowArray

end PeerToPeer.CLib
