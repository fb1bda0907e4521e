import PeerToPeer.Transition.Simulation
import Mathlib.Data.Set.Insert

namespace PeerToPeer.Swarm

open Relation Transition

/-- What a letter asks of its receiver, or tells it: members keep lists of records, ask one another
for a list, and ask to be listed. -/
inductive Note (κ α ρ : Type) where
  | ask (hash : κ) (source caller : α)
  | tell (listed : List ρ)
  | join (caller : ρ)
  | other

structure Letter (κ α ρ : Type) where
  dest : α
  note : Note κ α ρ

/-- What never changes: for each member its address, the hash it serves, whom it asks when it was
asked from an address, and the record it is listed by. A hash is kept under a shelf. -/
structure Setup (ν κ α β ρ : Type) where
  addr : ν → α
  key : ν → κ
  shelf : κ → β
  next : ν → α → Option α
  self : ν → ρ

/-- The lists of all members, the letters under way, which may arrive in any order, any number of
times or never, and the members that have asked to be listed. -/
@[ext] structure State (ν κ α β ρ : Type) where
  lists : ν → β → List ρ
  letters : Set (Letter κ α ρ)
  joiners : Set ν

section Rules

variable {ν κ α β ρ : Type} (c : Setup ν κ α β ρ)

/-- What member `j` may write. -/
inductive Writes (s : State ν κ α β ρ) (j : ν) : Letter κ α ρ → Prop where
  | search (hash : κ) (dest : α) (hn : c.next j (c.addr j) = some dest) :
      Writes s j ⟨dest, .ask hash (c.addr j) (c.addr j)⟩
  | forward (hash : κ) (source caller dest : α)
      (hl : ⟨c.addr j, .ask hash source caller⟩ ∈ s.letters) (he : s.lists j (c.shelf hash) = [])
      (hn : c.next j caller = some dest) : Writes s j ⟨dest, .ask (c.key j) source (c.addr j)⟩
  | answer (hash : κ) (source caller : α)
      (hl : ⟨c.addr j, .ask hash source caller⟩ ∈ s.letters) :
      Writes s j ⟨source, .tell (s.lists j (c.shelf hash))⟩
  | join (dest : α) : Writes s j ⟨dest, .join (c.self j)⟩
  | chat (dest : α) : Writes s j ⟨dest, .other⟩

/-- What a letter makes member `j` put on the list of its own hash. -/
inductive Takes (s : State ν κ α β ρ) (j : ν) : List ρ → Prop where
  | store (listed : List ρ) (hl : ⟨c.addr j, .tell listed⟩ ∈ s.letters) : Takes s j listed
  | enrol (caller : ρ) (hl : ⟨c.addr j, .join caller⟩ ∈ s.letters) : Takes s j [caller]

/-- Member `j` has put `added` on the list of its own hash. -/
structure Grown (lists lists' : ν → β → List ρ) (j : ν) (added : List ρ) : Prop where
  home : lists' j (c.shelf (c.key j)) = lists j (c.shelf (c.key j)) ++ added
  other : ∀ i b, i ≠ j ∨ b ≠ c.shelf (c.key j) → lists' i b = lists i b

/-- The members that write a letter to be listed: `j`, if it is one. -/
def Letter.joiner (l : Letter κ α ρ) (j : ν) : Set ν := {i | i = j ∧ ∃ r, l.note = .join r}

inductive Step (s : State ν κ α β ρ) : State ν κ α β ρ → Prop where
  | write (j : ν) (l : Letter κ α ρ) (hw : Writes c s j l) :
      Step s ⟨s.lists, insert l s.letters, s.joiners ∪ l.joiner j⟩
  | take (j : ν) (added : List ρ) (lists' : ν → β → List ρ) (ht : Takes c s j added)
      (hg : Grown c s.lists lists' j added) : Step s ⟨lists', s.letters, s.joiners⟩
  | lose (letters' : Set (Letter κ α ρ)) (hsub : letters' ⊆ s.letters) :
      Step s ⟨s.lists, letters', s.joiners⟩

variable {c}

theorem Writes.mono {s s' : State ν κ α β ρ} {j : ν} {l : Letter κ α ρ} (h : Writes c s j l)
    (hlists : s'.lists = s.lists) (hsub : s.letters ⊆ s'.letters) : Writes c s' j l := by
  cases h with
  | search hash dest hn => exact .search hash dest hn
  | forward hash source caller dest hl he hn =>
    exact .forward hash source caller dest (hsub hl) (by rw [hlists, he]) hn
  | answer hash source caller hl =>
    rw [← hlists]
    exact .answer hash source caller (hsub hl)
  | join dest => exact .join dest
  | chat dest => exact .chat dest

theorem Takes.mono {s s' : State ν κ α β ρ} {j : ν} {added : List ρ} (h : Takes c s j added)
    (hsub : s.letters ⊆ s'.letters) : Takes c s' j added := by
  cases h with
  | store _ hl => exact .store _ (hsub hl)
  | enrol caller hl => exact .enrol caller (hsub hl)

/-- A member writes several letters. -/
theorem reach_writes {s : State ν κ α β ρ} {j : ν} (out : List (Letter κ α ρ))
    (hout : ∀ l ∈ out, Writes c s j l) :
    ReflTransGen (Step c) s ⟨s.lists, s.letters ∪ {l | l ∈ out},
      s.joiners ∪ {i | ∃ l ∈ out, i ∈ l.joiner j}⟩ := by
  induction out generalizing s with
  | nil => simpa using ReflTransGen.refl
  | cons l out ih =>
    rw [List.forall_mem_cons] at hout
    refine .head (.write j l hout.1) ?_
    have hrest := ih (s := ⟨s.lists, insert l s.letters, s.joiners ∪ l.joiner j⟩)
      fun x hx => (hout.2 x hx).mono rfl (Set.subset_insert l s.letters)
    convert hrest using 2
    · ext x
      simp [or_left_comm, or_assoc]
    · ext i
      simp [or_assoc]

/-- One member writes, takes what a letter told it, and some letters are lost: the form in which
the code does everything. -/
theorem reach_turn {s : State ν κ α β ρ} {j : ν} (out : List (Letter κ α ρ)) (added : List ρ)
    (lists' : ν → β → List ρ) (letters' : Set (Letter κ α ρ))
    (hout : ∀ l ∈ out, Writes c s j l) (htake : added ≠ [] → Takes c s j added)
    (hg : Grown c s.lists lists' j added) (hsub : letters' ⊆ s.letters ∪ {l | l ∈ out}) :
    ReflTransGen (Step c) s ⟨lists', letters', s.joiners ∪ {i | ∃ l ∈ out, i ∈ l.joiner j}⟩ := by
  have hwritten := reach_writes out hout
  have hlost {t : State ν κ α β ρ} (h : letters' ⊆ t.letters) :
      ReflTransGen (Step c) t ⟨t.lists, letters', t.joiners⟩ := .single (.lose letters' h)
  by_cases hnil : added = []
  · have hsame : lists' = s.lists := by
      funext i b
      by_cases hb : i = j ∧ b = c.shelf (c.key j)
      · rw [hb.1, hb.2, hg.home, hnil, List.append_nil]
      · exact hg.other i b (not_and_or.mp hb)
    rw [hsame]
    exact hwritten.trans (hlost hsub)
  · let t : State ν κ α β ρ :=
      ⟨s.lists, s.letters ∪ {l | l ∈ out}, s.joiners ∪ {i | ∃ l ∈ out, i ∈ l.joiner j}⟩
    have htaken : Step c t ⟨lists', t.letters, t.joiners⟩ :=
      .take j added lists' ((htake hnil).mono Set.subset_union_left) hg
    exact (hwritten.tail htaken).trans (hlost hsub)

end Rules

end PeerToPeer.Swarm
