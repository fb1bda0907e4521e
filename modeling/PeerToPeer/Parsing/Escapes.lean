import PeerToPeer.Parsing.Strings

namespace PeerToPeer.Parsing

open CLib

/-- The backslashes that begin an escape when the scan starts at the front of the text. -/
def escapes : List UInt8 → Nat
  | [] => 0
  | c :: rest =>
    if c = backslash then
      match rest with
      | [] => 1
      | _ :: rest => escapes rest + 1
    else escapes rest

@[simp] theorem escapes_nil : escapes [] = 0 := rfl

theorem escapes_plain {c : UInt8} (h : c ≠ backslash) (rest : List UInt8) :
    escapes (c :: rest) = escapes rest := by
  rw [escapes.eq_def]
  exact if_neg h

theorem escapes_pair (c : UInt8) (rest : List UInt8) :
    escapes (backslash :: c :: rest) = escapes rest + 1 := by
  rw [escapes, if_pos rfl]

theorem escapes_last : escapes [backslash] = 1 := by
  rw [escapes, if_pos rfl]

/-- A scan that starts one character late, in the middle of an escape or not, counts at most one
escape less, and none more. -/
theorem escapes_tail (c : UInt8) (rest : List UInt8) :
    escapes rest ≤ escapes (c :: rest) ∧ escapes (c :: rest) ≤ escapes rest + 1 := by
  induction hn : rest.length using Nat.strong_induction_on generalizing c rest with
  | _ n ih =>
    by_cases hc : c = backslash
    · subst hc
      cases rest with
      | nil => simp [escapes_last]
      | cons d rest =>
        rw [escapes_pair]
        by_cases hd : d = backslash
        · subst hd
          cases rest with
          | nil => simp [escapes_last]
          | cons e rest =>
            have hshort : rest.length < n := by
              simp only [List.length_cons] at hn
              omega
            obtain ⟨hle, hge⟩ := ih rest.length hshort e rest rfl
            rw [escapes_pair]
            omega
        · rw [escapes_plain hd]
          omega
    · rw [escapes_plain hc]
      omega

theorem escapes_le_length (text : List UInt8) : escapes text ≤ text.length := by
  induction text with
  | nil => exact Nat.le_refl 0
  | cons c rest ih =>
    have htail := (escapes_tail c rest).2
    rw [List.length_cons]
    omega

/-- Of `2 * k` characters passed over at once at most `k` began an escape. -/
theorem escapes_drop (k : Nat) (text : List UInt8) :
    escapes text ≤ k + escapes (text.drop (2 * k)) := by
  induction k generalizing text with
  | zero => simp
  | succ k ih =>
    have hpair : escapes text ≤ 1 + escapes (text.drop 2) := by
      match text with
      | [] => simp
      | [c] => simpa [Nat.add_comm] using (escapes_tail c []).2
      | c :: d :: rest =>
        by_cases hc : c = backslash
        · subst hc
          rw [escapes_pair]
          simp [Nat.add_comm]
        · rw [escapes_plain hc]
          simpa [Nat.add_comm] using (escapes_tail d rest).2
    have hrest := ih (text.drop 2)
    rw [List.drop_drop, show 2 + 2 * k = 2 * (k + 1) by omega] at hrest
    omega

/-- The first pass stops at a quote, and skips one backslash for each escape before it. -/
theorem scanString_some {text : List UInt8} {n skipped : Nat}
    (h : scanString text = some (n, skipped)) :
    text[n]? = some quote ∧ skipped = escapes (text.take n) := by
  fun_induction scanString text generalizing n skipped with
  | case1 => cases h
  | case2 rest =>
    cases h
    exact ⟨rfl, rfl⟩
  | case3 => cases h
  | case4 hq d rest ih =>
    obtain ⟨⟨m, k⟩, hm, hnk⟩ := Option.map_eq_some_iff.mp h
    cases hnk
    obtain ⟨hquote, hk⟩ := ih hm
    refine ⟨by simpa using hquote, ?_⟩
    rw [List.take_succ_cons, List.take_succ_cons, escapes_pair, hk]
  | case5 c rest hq hb ih =>
    obtain ⟨⟨m, k⟩, hm, hnk⟩ := Option.map_eq_some_iff.mp h
    cases hnk
    obtain ⟨hquote, hk⟩ := ih hm
    refine ⟨by simpa using hquote, ?_⟩
    rw [List.take_succ_cons, escapes_plain hb, hk]

end PeerToPeer.Parsing
