import PeerToPeer.CLib.Double
import PeerToPeer.Parsing.Buffer

namespace PeerToPeer.Parsing

open CLib

def isDigit (c : UInt8) : Bool := 0x30 ≤ c && c ≤ 0x39

/-- The characters `parse_number` copies: digits, signs, the letters of an exponent and `.`. -/
def isNumberChar (c : UInt8) : Bool :=
  isDigit c || c = 0x2B || c = 0x2D || c = 0x65 || c = 0x45 || c = 0x2E

/-- A decimal number: all its digits, and the power of ten they are scaled by. -/
structure Decimal where
  negative : Bool
  digits : Nat
  exponent : Int

def Decimal.value (d : Decimal) : ℚ :=
  (if d.negative then -1 else 1) * (d.digits : ℚ) * 10 ^ d.exponent

/-- The number that digits spell. -/
def digitsValue (ds : List UInt8) : Nat := ds.foldl (fun n d => 10 * n + (d.toNat - 0x30)) 0

/-- A sign in front of a number, and what follows it. -/
def takeSign : List UInt8 → Bool × List UInt8
  | c :: rest =>
    if c = 0x2D then (true, rest) else if c = 0x2B then (false, rest) else (false, c :: rest)
  | [] => (false, [])

/-- The digits behind a point, if there is one, and what follows them. -/
def takeFraction : List UInt8 → List UInt8 × List UInt8
  | c :: rest => if c = 0x2E then rest.span isDigit else ([], c :: rest)
  | [] => ([], [])

/-- An exponent, if its letter is followed by digits, and what follows it. -/
def takeExponent : List UInt8 → Int × List UInt8
  | c :: rest =>
    if c = 0x65 ∨ c = 0x45 then
      let (negative, s) := takeSign rest
      let (ds, behind) := s.span isDigit
      if ds = [] then (0, c :: rest)
      else (if negative then -(digitsValue ds : Int) else digitsValue ds, behind)
    else (0, c :: rest)
  | [] => (0, [])

/-- `strtod` on a string of number characters: the number it reads there before it rounds, and
what it leaves; `none` when it converts nothing. -/
def strtod (s : List UInt8) : Option (Decimal × List UInt8) :=
  let (negative, s) := takeSign s
  let (int, s) := s.span isDigit
  let (fraction, s) := takeFraction s
  if int = [] ∧ fraction = [] then none
  else
    let (exponent, s) := takeExponent s
    some (⟨negative, digitsValue (int ++ fraction), exponent - fraction.length⟩, s)

/-- `valueint`, with saturation in case of overflow. -/
def saturate (number : ℚ) : Int32 :=
  if 2147483647 ≤ number then Int32.maxValue
  else if number ≤ -2147483648 then Int32.minValue
  else if 0 ≤ number then Int32.ofInt ⌊number⌋ else Int32.ofInt ⌈number⌉

def Decimal.valueint (d : Decimal) : Int32 := saturate (toDouble d.value)

/-- `parse_number` -/
def parseNumber (content : List UInt8) (offset : Nat) : Option Json × Nat :=
  let numberCString := (content.drop offset).takeWhile isNumberChar
  match strtod numberCString with
  | none => (none, offset)
  | some (number, afterEnd) =>
    (some (.number number.valueint), offset + (numberCString.length - afterEnd.length))

end PeerToPeer.Parsing
