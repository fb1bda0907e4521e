import PeerToPeer.Parsing.Numbers
import PeerToPeer.Parsing.Strings

namespace PeerToPeer.Parsing

open CLib

/-- White space between tokens. -/
structure Blanks where
  chars : List UInt8
  blank : ∀ c ∈ chars, c = 0x20 ∨ c = 0x09 ∨ c = 0x0A ∨ c = 0x0D

/-- A hexadecimal digit, with its case. -/
structure HexDigit where
  value : Fin 16
  upper : Bool

def HexDigit.char (d : HexDigit) : UInt8 :=
  if d.value < 10 then 0x30 + UInt8.ofNat d.value
  else if d.upper then 0x41 + UInt8.ofNat (d.value - 10) else 0x61 + UInt8.ofNat (d.value - 10)

/-- The four digits of a `\u` escape. -/
structure CodeUnit where
  d₀ : HexDigit
  d₁ : HexDigit
  d₂ : HexDigit
  d₃ : HexDigit

namespace CodeUnit

variable (u : CodeUnit)

def value : Nat := ((u.d₀.value * 16 + u.d₁.value) * 16 + u.d₂.value) * 16 + u.d₃.value

def text : List UInt8 := [backslash, 0x75, u.d₀.char, u.d₁.char, u.d₂.char, u.d₃.char]

/-- The unit is a character of its own. -/
def Alone : Prop := u.value < 0xD800 ∨ 0xDFFF < u.value

def High : Prop := 0xD800 ≤ u.value ∧ u.value < 0xDC00

def Low : Prop := 0xDC00 ≤ u.value ∧ u.value < 0xE000

end CodeUnit

/-- The escapes that stand for one ASCII character. -/
inductive Escape where
  | quote
  | backslash
  | slash
  | backspace
  | formFeed
  | newline
  | carriageReturn
  | tab

namespace Escape

def letter : Escape → UInt8
  | quote => 0x22
  | backslash => 0x5C
  | slash => 0x2F
  | backspace => 0x62
  | formFeed => 0x66
  | newline => 0x6E
  | carriageReturn => 0x72
  | tab => 0x74

def byte : Escape → UInt8
  | quote => 0x22
  | backslash => 0x5C
  | slash => 0x2F
  | backspace => 0x08
  | formFeed => 0x0C
  | newline => 0x0A
  | carriageReturn => 0x0D
  | tab => 0x09

end Escape

/-- What a string is written in: bytes of unescaped characters, and escapes. -/
inductive Piece where
  | plain (c : UInt8) (h : 0x20 ≤ c ∧ c ≠ quote ∧ c ≠ backslash)
  | escape (e : Escape)
  | unit (u : CodeUnit) (h : u.Alone)
  | pair (high low : CodeUnit) (hh : high.High) (hl : low.Low)

namespace Piece

def text : Piece → List UInt8
  | plain c _ => [c]
  | escape e => [backslash, e.letter]
  | unit u _ => u.text
  | pair high low _ _ => high.text ++ low.text

/-- The character that a pair of surrogates stands for. -/
def pairValue (high low : CodeUnit) : Nat :=
  0x10000 + (high.value - 0xD800) * 0x400 + (low.value - 0xDC00)

/-- The piece in UTF-8. -/
def bytes : Piece → List UInt8
  | plain c _ => [c]
  | escape e => [e.byte]
  | unit u _ => String.utf8EncodeChar (Char.ofNat u.value)
  | pair high low _ _ => String.utf8EncodeChar (Char.ofNat (pairValue high low))

end Piece

abbrev WrittenString : Type := List Piece

namespace WrittenString

def inner (s : WrittenString) : List UInt8 := s.flatMap Piece.text

def text (s : WrittenString) : List UInt8 := quote :: (inner s ++ [quote])

def bytes (s : WrittenString) : List UInt8 := s.flatMap Piece.bytes

/-- The string as C sees it: a `\u0000` ends it. -/
def value (s : WrittenString) : CString := ⟨chars (bytes s), zero_notMem_chars _⟩

end WrittenString

/-- The sign of an exponent. -/
inductive ExponentSign where
  | none
  | plus
  | minus
  deriving DecidableEq

structure WrittenExponent where
  upper : Bool
  sign : ExponentSign
  digits : List UInt8
  isDigits : ∀ c ∈ digits, isDigit c = true
  nonempty : digits ≠ []

namespace WrittenExponent

variable (e : WrittenExponent)

def signText : List UInt8 :=
  match e.sign with
  | .none => []
  | .plus => [0x2B]
  | .minus => [0x2D]

def text : List UInt8 := (if e.upper then 0x45 else 0x65) :: (e.signText ++ e.digits)

def value : Int :=
  match e.sign with
  | .minus => -(digitsValue e.digits : Int)
  | _ => digitsValue e.digits

end WrittenExponent

/-- A number: its digits before the point, those behind it, if any, and its exponent. -/
structure WrittenNumber where
  negative : Bool
  int : List UInt8
  fraction : List UInt8
  exponent : Option WrittenExponent
  isInt : ∀ c ∈ int, isDigit c = true
  isFraction : ∀ c ∈ fraction, isDigit c = true
  nonempty : int ≠ []

namespace WrittenNumber

variable (n : WrittenNumber)

def fractionText : List UInt8 := if n.fraction = [] then [] else 0x2E :: n.fraction

def exponentText : List UInt8 := (n.exponent.map WrittenExponent.text).getD []

def text : List UInt8 :=
  (if n.negative then [0x2D] else []) ++ (n.int ++ (n.fractionText ++ n.exponentText))

def decimal : Decimal :=
  ⟨n.negative, digitsValue (n.int ++ n.fraction),
    (n.exponent.map WrittenExponent.value).getD 0 - n.fraction.length⟩

end WrittenNumber

/-- A name of an object, with the colon behind it and the blanks on both sides of the colon. -/
structure Name where
  name : WrittenString
  after : Blanks
  before : Blanks

def Name.text (n : Name) : List UInt8 :=
  WrittenString.text n.name ++ (n.after.chars ++ colon :: n.before.chars)

mutual

/-- A JSON value, as it is written. -/
inductive Written where
  | null
  | bool (b : Bool)
  | number (n : WrittenNumber)
  | string (s : WrittenString)
  | emptyArray (blanks : Blanks)
  | array (before : Blanks) (elements : Elements)
  | emptyObject (blanks : Blanks)
  | object (before : Blanks) (members : Members)

/-- Values, with commas between them. -/
inductive Elements where
  | last (v : Written) (after : Blanks)
  | cons (v : Written) (after before : Blanks) (rest : Elements)

inductive Members where
  | last (name : Name) (v : Written) (after : Blanks)
  | cons (name : Name) (v : Written) (after before : Blanks) (rest : Members)

end

mutual

def Written.text : Written → List UInt8
  | .null => (CString.lit "null").chars
  | .bool b => (if b then CString.lit "true" else CString.lit "false").chars
  | .number n => n.text
  | .string s => WrittenString.text s
  | .emptyArray blanks => openBracket :: (blanks.chars ++ [closeBracket])
  | .array before elements => openBracket :: (before.chars ++ (elements.text ++ [closeBracket]))
  | .emptyObject blanks => openBrace :: (blanks.chars ++ [closeBrace])
  | .object before members => openBrace :: (before.chars ++ (members.text ++ [closeBrace]))

def Elements.text : Elements → List UInt8
  | .last v after => v.text ++ after.chars
  | .cons v after before rest => v.text ++ (after.chars ++ comma :: (before.chars ++ rest.text))

def Members.text : Members → List UInt8
  | .last name v after => name.text ++ (v.text ++ after.chars)
  | .cons name v after before rest =>
    name.text ++ (v.text ++ (after.chars ++ comma :: (before.chars ++ rest.text)))

end

mutual

/-- What the text says. -/
def Written.value : Written → Json
  | .null => .null
  | .bool b => .bool b
  | .number n => .number n.decimal.valueint
  | .string s => .string (WrittenString.value s)
  | .emptyArray _ => .array []
  | .array _ elements => .array elements.values
  | .emptyObject _ => .object []
  | .object _ members => .object members.values

def Elements.values : Elements → List Json
  | .last v _ => [v.value]
  | .cons v _ _ rest => v.value :: rest.values

def Members.values : Members → List (CString × Json)
  | .last name v _ => [(WrittenString.value name.name, v.value)]
  | .cons name v _ _ rest => (WrittenString.value name.name, v.value) :: rest.values

end

/-- A document: a value with blanks around it, and perhaps a byte order mark in front. -/
structure Document where
  bom : Bool
  before : Blanks
  root : Written
  after : Blanks

def Document.text (d : Document) : List UInt8 :=
  (if d.bom then [0xEF, 0xBB, 0xBF] else []) ++ (d.before.chars ++ (d.root.text ++ d.after.chars))

end PeerToPeer.Parsing
