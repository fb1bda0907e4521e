import PeerToPeer.Parsing.NumberText

namespace PeerToPeer.Parsing

/-- A number as `strtod` takes one: there may be digits on one side of the point only. -/
structure LooseNumber where
  negative : Bool
  int : List UInt8
  point : Bool
  fraction : List UInt8
  exponent : Option WrittenExponent
  isInt : ∀ c ∈ int, isDigit c = true
  isFraction : ∀ c ∈ fraction, isDigit c = true
  behindPoint : fraction ≠ [] → point = true
  nonempty : int ≠ [] ∨ fraction ≠ []

namespace LooseNumber

variable (n : LooseNumber)

def text : List UInt8 :=
  (if n.negative then [0x2D] else []) ++ (n.int ++ ((if n.point then 0x2E :: n.fraction else []) ++
    (n.exponent.map WrittenExponent.text).getD []))

def decimal : Decimal :=
  ⟨n.negative, digitsValue (n.int ++ n.fraction),
    (n.exponent.map WrittenExponent.value).getD 0 - n.fraction.length⟩

end LooseNumber

theorem span_append (p : UInt8 → Bool) (s : List UInt8) : s = (s.span p).1 ++ (s.span p).2 := by
  rw [List.span_eq_takeWhile_dropWhile, List.takeWhile_append_dropWhile]

theorem mem_span {p : UInt8 → Bool} {s : List UInt8} {c : UInt8} (h : c ∈ (s.span p).1) :
    p c = true := by
  rw [List.span_eq_takeWhile_dropWhile] at h
  exact List.mem_takeWhile_imp h

/-- A number that begins with no plus has a minus as its sign, or none. -/
theorem takeSign_minus {s : List UInt8} (h : ∀ c ∈ s.head?, c ≠ 0x2B) :
    s = (if (takeSign s).1 then [0x2D] else []) ++ (takeSign s).2 := by
  cases s with
  | nil => rfl
  | cons c rest =>
    have hplus : c ≠ 0x2B := h c rfl
    by_cases hminus : c = 0x2D
    · rw [takeSign, if_pos hminus, hminus]
      rfl
    · rw [takeSign, if_neg hminus, if_neg hplus]
      rfl

theorem takeSign_spelled (s : List UInt8) : ∃ sign : ExponentSign,
    (∀ e : WrittenExponent, e.sign = sign → s = e.signText ++ (takeSign s).2) ∧
      (takeSign s).1 = decide (sign = .minus) := by
  cases s with
  | nil =>
    refine ⟨.none, ?_, rfl⟩
    intro e he
    rw [WrittenExponent.signText, he]
    rfl
  | cons c rest =>
    by_cases hminus : c = 0x2D
    · rw [takeSign, if_pos hminus, hminus]
      refine ⟨.minus, ?_, rfl⟩
      intro e he
      rw [WrittenExponent.signText, he]
      rfl
    · by_cases hplus : c = 0x2B
      · rw [takeSign, if_neg hminus, if_pos hplus, hplus]
        refine ⟨.plus, ?_, rfl⟩
        intro e he
        rw [WrittenExponent.signText, he]
        rfl
      · rw [takeSign, if_neg hminus, if_neg hplus]
        refine ⟨.none, ?_, rfl⟩
        intro e he
        rw [WrittenExponent.signText, he]
        rfl

theorem takeFraction_spelled (s : List UInt8) : ∃ point : Bool,
    s = (if point then 0x2E :: (takeFraction s).1 else []) ++ (takeFraction s).2 ∧
      (∀ c ∈ (takeFraction s).1, isDigit c = true) ∧ ((takeFraction s).1 ≠ [] → point = true) := by
  cases s with
  | nil => exact ⟨false, rfl, by simp [takeFraction], fun h => absurd rfl h⟩
  | cons c rest =>
    rw [takeFraction]
    split_ifs with hpoint
    · refine ⟨true, ?_, fun _ hd => mem_span hd, fun _ => rfl⟩
      rw [hpoint, if_pos rfl, List.cons_append, ← span_append]
    · exact ⟨false, rfl, by simp, fun h => absurd rfl h⟩

theorem takeExponent_spelled (s : List UInt8) : ∃ exponent : Option WrittenExponent,
    s = (exponent.map WrittenExponent.text).getD [] ++ (takeExponent s).2 ∧
      (takeExponent s).1 = (exponent.map WrittenExponent.value).getD 0 := by
  cases s with
  | nil => exact ⟨none, rfl, rfl⟩
  | cons c rest =>
    by_cases hletter : c = 0x65 ∨ c = 0x45
    · rw [takeExponent, if_pos hletter]
      obtain ⟨sign, hsign, hnegative⟩ := takeSign_spelled rest
      dsimp only
      by_cases hempty : ((takeSign rest).2.span isDigit).1 = []
      · rw [if_pos hempty]
        exact ⟨none, rfl, rfl⟩
      · let e : WrittenExponent :=
          ⟨decide (c = 0x45), sign, ((takeSign rest).2.span isDigit).1, fun _ => mem_span, hempty⟩
        have hfirst : (if e.upper then 0x45 else 0x65 : UInt8) = c := by
          rcases hletter with rfl | rfl <;> rfl
        refine ⟨some e, ?_, ?_⟩
        · rw [if_neg hempty, Option.map_some, Option.getD_some, WrittenExponent.text, hfirst,
            List.cons_append, List.append_assoc, ← span_append, ← hsign e rfl]
        · rw [if_neg hempty, Option.map_some, Option.getD_some, e.value_eq, hnegative]
    · rw [takeExponent, if_neg hletter]
      exact ⟨none, rfl, rfl⟩

/-- What `strtod` converts is a number as it takes one, and it reads in it what it says. -/
theorem strtod_spelled {s rest : List UInt8} {d : Decimal} (hs : ∀ c ∈ s.head?, c ≠ 0x2B)
    (h : strtod s = some (d, rest)) : ∃ n : LooseNumber, s = n.text ++ rest ∧ n.decimal = d := by
  have hsign := takeSign_minus hs
  obtain ⟨point, hfraction, hdigits, hpoint⟩ := takeFraction_spelled ((takeSign s).2.span isDigit).2
  obtain ⟨exponent, hexponent, hvalue⟩ :=
    takeExponent_spelled (takeFraction ((takeSign s).2.span isDigit).2).2
  have hint := span_append isDigit (takeSign s).2
  unfold strtod at h
  dsimp only at h
  split_ifs at h with hnone
  obtain ⟨rfl, rfl⟩ := Prod.mk.inj (Option.some.inj h)
  let n : LooseNumber :=
    { negative := (takeSign s).1
      int := ((takeSign s).2.span isDigit).1
      point
      fraction := (takeFraction ((takeSign s).2.span isDigit).2).1
      exponent
      isInt := fun _ => mem_span
      isFraction := hdigits
      behindPoint := hpoint
      nonempty := by
        by_contra hempty
        rw [not_or, not_not, not_not] at hempty
        exact hnone hempty }
  refine ⟨n, ?_, by rw [hvalue]; rfl⟩
  rw [LooseNumber.text, List.append_assoc, List.append_assoc, List.append_assoc, ← hexponent,
    ← hfraction, ← hint]
  exact hsign

end PeerToPeer.Parsing
