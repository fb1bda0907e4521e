import PeerToPeer.Swarm.Protocol

namespace PeerToPeer.Swarm

open Relation Transition

variable {ν κ α β ρ : Type} {c : Setup ν κ α β ρ}

/-- The records that the swarm started with, or of members that asked to be listed. -/
def State.Known (s₀ s : State ν κ α β ρ) (c : Setup ν κ α β ρ) (r : ρ) : Prop :=
  (∃ i b, r ∈ s₀.lists i b) ∨ ∃ i ∈ s.joiners, r = c.self i

/-- Nobody is made up: every record on a list, and every record in a letter, is known. -/
structure Honest (c : Setup ν κ α β ρ) (s₀ s : State ν κ α β ρ) : Prop where
  lists : ∀ i b, ∀ r ∈ s.lists i b, s₀.Known s c r
  told : ∀ dest listed, ⟨dest, .tell listed⟩ ∈ s.letters → ∀ r ∈ listed, s₀.Known s c r
  joining : ∀ dest r, ⟨dest, .join r⟩ ∈ s.letters → s₀.Known s c r

theorem State.Known.mono {s₀ s s' : State ν κ α β ρ} {r : ρ} (h : s₀.Known s c r)
    (hsub : s.joiners ⊆ s'.joiners) : s₀.Known s' c r :=
  h.imp_right fun ⟨i, hi, hr⟩ => ⟨i, hsub hi, hr⟩

theorem Honest.step {s₀ s s' : State ν κ α β ρ} (h : Honest c s₀ s) (hs : Step c s s') :
    Honest c s₀ s' := by
  cases hs with
  | lose letters' hsub =>
    exact ⟨h.lists, fun dest listed hl => h.told dest listed (hsub hl),
      fun dest r hl => h.joining dest r (hsub hl)⟩
  | take j added lists' ht hg =>
    refine ⟨?_, h.told, h.joining⟩
    have hadded : ∀ r ∈ added, s₀.Known s c r := by
      cases ht with
      | store _ hl => exact h.told _ _ hl
      | enrol caller hl => simpa using h.joining _ _ hl
    intro i b r hr
    by_cases hb : i = j ∧ b = c.shelf (c.key j)
    · simp only [hb.1, hb.2, hg.home, List.mem_append] at hr
      exact hr.elim (h.lists _ _ r) (hadded r)
    · simp only [hg.other i b (not_and_or.mp hb)] at hr
      exact h.lists i b r hr
  | write j l hw =>
    have hold {r : ρ} (hr : s₀.Known s c r) :
        s₀.Known ⟨s.lists, insert l s.letters, s.joiners ∪ l.joiner j⟩ c r :=
      hr.mono Set.subset_union_left
    refine ⟨fun i b r hr => hold (h.lists i b r hr), ?_, ?_⟩
    · intro dest listed hl r hr
      rcases Set.mem_insert_iff.mp hl with rfl | hl
      · cases hw with
        | answer hash source caller _ => exact hold (h.lists j _ r hr)
      · exact hold (h.told dest listed hl r hr)
    · intro dest r hl
      rcases Set.mem_insert_iff.mp hl with rfl | hl
      · cases hw with
        | join _ => exact .inr ⟨j, .inr ⟨rfl, _, rfl⟩, rfl⟩
      · exact hold (h.joining dest r hl)

/-- Wherever the protocol leads from a quiet start, everybody listed was listed at the start or
has asked to be listed. -/
theorem reach_honest {s₀ s : State ν κ α β ρ} (hquiet : s₀.letters = ∅)
    (h : ReflTransGen (Step c) s₀ s) : Honest c s₀ s := by
  have hinit : Honest c s₀ s₀ := by
    refine ⟨fun i b r hr => .inl ⟨i, b, hr⟩, ?_, ?_⟩ <;> simp [hquiet]
  exact reach_invariant (P := Honest c s₀) (fun _ _ h hs => h.step hs) hinit h

/-- Every list told is how some member's list begins, and every question comes from the member
it names, with the address of a member as its source. -/
structure Current (c : Setup ν κ α β ρ) (s : State ν κ α β ρ) : Prop where
  told : ∀ dest listed, ⟨dest, .tell listed⟩ ∈ s.letters → ∃ i b, listed <+: s.lists i b
  asked : ∀ dest hash source caller, ⟨dest, .ask hash source caller⟩ ∈ s.letters →
    (∃ i, source = c.addr i) ∧ ∃ u t, caller = c.addr u ∧ c.next u t = some dest

theorem Step.grows {s s' : State ν κ α β ρ} (hs : Step c s s') (i : ν) (b : β) :
    s.lists i b <+: s'.lists i b := by
  cases hs with
  | write => exact List.prefix_rfl
  | lose => exact List.prefix_rfl
  | take j added lists' ht hg =>
    by_cases hb : i = j ∧ b = c.shelf (c.key j)
    · simp only [hb.1, hb.2, hg.home, List.prefix_append]
    · simp only [hg.other i b (not_and_or.mp hb), List.prefix_rfl]

theorem Current.step {s s' : State ν κ α β ρ} (h : Current c s) (hs : Step c s s') :
    Current c s' := by
  have hgrows := hs.grows
  cases hs with
  | lose letters' hsub =>
    exact ⟨fun dest listed hl => h.told dest listed (hsub hl),
      fun dest hash source caller hl => h.asked dest hash source caller (hsub hl)⟩
  | take j added lists' ht hg =>
    refine ⟨?_, h.asked⟩
    intro dest listed hl
    obtain ⟨i, b, hp⟩ := h.told dest listed hl
    exact ⟨i, b, hp.trans (hgrows i b)⟩
  | write j l hw =>
    constructor
    · intro dest listed hl
      rcases Set.mem_insert_iff.mp hl with rfl | hl
      · cases hw with
        | answer hash source caller _ => exact ⟨j, _, List.prefix_rfl⟩
      · exact h.told dest listed hl
    · intro dest hash source caller hl
      rcases Set.mem_insert_iff.mp hl with rfl | hl
      · cases hw with
        | search _ _ hn => exact ⟨⟨j, rfl⟩, j, _, rfl, hn⟩
        | forward _ _ _ _ hl' _ hn =>
          exact ⟨(h.asked _ _ _ _ hl').1, j, _, rfl, hn⟩
      · exact h.asked dest hash source caller hl

theorem reach_current {s₀ s : State ν κ α β ρ} (hquiet : s₀.letters = ∅)
    (h : ReflTransGen (Step c) s₀ s) : Current c s := by
  have hinit : Current c s₀ := by
    constructor <;> simp [hquiet]
  exact reach_invariant (P := Current c) (fun _ _ h hs => h.step hs) hinit h

end PeerToPeer.Swarm
