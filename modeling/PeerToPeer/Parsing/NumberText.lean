import PeerToPeer.Parsing.Written
import Mathlib.Tactic.Linarith

namespace PeerToPeer.Parsing

open CLib

section Text

/-- Digits end where something else begins. -/
theorem span_digits {ds rest : List UInt8} (hds : ∀ c ∈ ds, isDigit c = true)
    (hrest : ∀ c ∈ rest.head?, isDigit c = false) : (ds ++ rest).span isDigit = (ds, rest) := by
  rw [List.span_eq_takeWhile_dropWhile, List.takeWhile_append_of_pos hds,
    List.dropWhile_append_of_pos hds]
  cases rest with
  | nil => simp
  | cons c rest =>
    have hc : isDigit c = false := hrest c rfl
    rw [List.takeWhile_cons_of_neg (by simp [hc]), List.dropWhile_cons_of_neg (by simp [hc]),
      List.append_nil]

theorem digit_not_sign {c : UInt8} (h : isDigit c = true) : c ≠ 0x2D ∧ c ≠ 0x2B := by
  constructor <;>
  · rintro rfl
    exact absurd h (by decide)

theorem takeSign_digits {ds : List UInt8} (hds : ∀ c ∈ ds, isDigit c = true) (hne : ds ≠ [])
    (rest : List UInt8) : takeSign (ds ++ rest) = (false, ds ++ rest) := by
  cases ds with
  | nil => exact absurd rfl hne
  | cons c ds =>
    obtain ⟨hminus, hplus⟩ := digit_not_sign (hds c (by simp))
    rw [List.cons_append, takeSign, if_neg hminus, if_neg hplus]

namespace WrittenExponent

variable (e : WrittenExponent)

theorem takeSign_text :
    takeSign (e.signText ++ e.digits) = (decide (e.sign = .minus), e.digits) := by
  unfold signText
  cases e.sign with
  | none => simpa using takeSign_digits e.isDigits e.nonempty []
  | plus => rfl
  | minus => rfl

theorem value_eq : e.value =
    if decide (e.sign = .minus) then -(digitsValue e.digits : Int) else digitsValue e.digits := by
  unfold value
  cases e.sign <;> rfl

theorem takeExponent_text : takeExponent e.text = (e.value, []) := by
  have hspan : e.digits.span isDigit = (e.digits, []) := by
    have hall := @span_digits e.digits [] e.isDigits (by simp)
    rwa [List.append_nil] at hall
  have hletter : (if e.upper then 0x45 else 0x65 : UInt8) = 0x65 ∨
      (if e.upper then 0x45 else 0x65 : UInt8) = 0x45 := by
    cases e.upper <;> decide
  rw [text, takeExponent, if_pos hletter, takeSign_text]
  dsimp only
  rw [hspan]
  dsimp only
  rw [if_neg e.nonempty, value_eq]

/-- An exponent begins with a letter. -/
theorem text_head {c : UInt8} (h : c ∈ e.text.head?) : isDigit c = false ∧ c ≠ 0x2E := by
  obtain rfl : (if e.upper then 0x45 else 0x65 : UInt8) = c := by simpa [text] using h
  cases e.upper <;> decide

theorem text_chars : ∀ c ∈ e.text, isNumberChar c = true := by
  have hdigit : ∀ c ∈ e.digits, isNumberChar c = true := by
    intro c hc
    rw [isNumberChar, e.isDigits c hc]
    rfl
  have hsign : ∀ c ∈ e.signText, isNumberChar c = true := by
    unfold signText
    cases e.sign <;> exact List.all_eq_true.mp (by decide)
  intro c hc
  rw [text, List.mem_cons, List.mem_append] at hc
  rcases hc with rfl | hc | hc
  · cases e.upper <;> decide
  · exact hsign c hc
  · exact hdigit c hc

end WrittenExponent

namespace WrittenNumber

variable (n : WrittenNumber)

theorem exponentText_head {c : UInt8} (h : c ∈ n.exponentText.head?) :
    isDigit c = false ∧ c ≠ 0x2E := by
  unfold exponentText at h
  cases he : n.exponent with
  | none => simp [he] at h
  | some e => exact e.text_head (by simpa [he] using h)

theorem takeExponent_text : takeExponent n.exponentText =
    ((n.exponent.map WrittenExponent.value).getD 0, []) := by
  unfold exponentText
  cases n.exponent with
  | none => rfl
  | some e => exact e.takeExponent_text

theorem takeFraction_text :
    takeFraction (n.fractionText ++ n.exponentText) = (n.fraction, n.exponentText) := by
  unfold fractionText
  split_ifs with hempty
  · rw [hempty, List.nil_append]
    cases htext : n.exponentText with
    | nil => rfl
    | cons c rest =>
      have hc := (n.exponentText_head (c := c) (by simp [htext])).2
      rw [takeFraction, if_neg hc]
  · rw [List.cons_append, takeFraction, if_pos rfl]
    exact span_digits n.isFraction fun c hc => (n.exponentText_head hc).1

theorem span_int : (n.int ++ (n.fractionText ++ n.exponentText)).span isDigit =
    (n.int, n.fractionText ++ n.exponentText) := by
  refine span_digits n.isInt ?_
  unfold fractionText
  split_ifs with hempty
  · exact fun c hc => (n.exponentText_head hc).1
  · intro c hc
    obtain rfl : 0x2E = c := by simpa using hc
    decide

theorem takeSign_text :
    takeSign n.text = (n.negative, n.int ++ (n.fractionText ++ n.exponentText)) := by
  unfold text
  cases n.negative with
  | true => rfl
  | false => exact takeSign_digits n.isInt n.nonempty _

/-- `strtod` takes the whole text, and reads in it what it says. -/
theorem strtod_text : strtod n.text = some (n.decimal, []) := by
  unfold strtod
  rw [takeSign_text]
  dsimp only
  rw [span_int]
  dsimp only
  rw [takeFraction_text]
  dsimp only
  rw [if_neg (fun h => n.nonempty h.1), takeExponent_text]
  rfl

theorem text_chars : ∀ c ∈ n.text, isNumberChar c = true := by
  have hdigits {ds : List UInt8} (h : ∀ c ∈ ds, isDigit c = true) :
      ∀ c ∈ ds, isNumberChar c = true := by
    intro c hc
    rw [isNumberChar, h c hc]
    rfl
  have hfraction : ∀ c ∈ n.fractionText, isNumberChar c = true := by
    unfold fractionText
    split_ifs
    · simp
    · intro c hc
      rcases List.mem_cons.mp hc with rfl | hc
      · decide
      · exact hdigits n.isFraction c hc
  have hexponent : ∀ c ∈ n.exponentText, isNumberChar c = true := by
    unfold exponentText
    cases n.exponent with
    | none => simp
    | some e => exact e.text_chars
  intro c hc
  simp only [text, List.mem_append] at hc
  rcases hc with hc | hc | hc | hc
  · cases hn : n.negative with
    | true =>
      obtain rfl : c = 0x2D := by simpa [hn] using hc
      decide
    | false => simp [hn] at hc
  · exact hdigits n.isInt c hc
  · exact hfraction c hc
  · exact hexponent c hc

end WrittenNumber

end Text

/-- What follows cannot be taken for a part of a number. -/
def Stops (rest : List UInt8) : Prop := ∀ c ∈ rest.head?, isNumberChar c = false

/-- `parse_number` reads a number as it is written. -/
theorem parseNumber_written {content rest : List UInt8} {offset : Nat} (n : WrittenNumber)
    (h : content.drop offset = n.text ++ rest) (hrest : Stops rest) :
    parseNumber content offset =
      (some (.number n.decimal.valueint), offset + n.text.length) := by
  have htake : (content.drop offset).takeWhile isNumberChar = n.text := by
    rw [h, List.takeWhile_append_of_pos n.text_chars]
    cases rest with
    | nil => simp
    | cons c rest =>
      have hc : isNumberChar c = false := hrest c rfl
      rw [List.takeWhile_cons_of_neg (by simp [hc]), List.append_nil]
  rw [parseNumber, htake, n.strtod_text]
  rfl

end PeerToPeer.Parsing
