import DocTables.Digits

/-!
# What a plain scalar can mean

A plain scalar is text, and it may also be null, a boolean or a number. The readers here say which;
the writer asks them too, to put quotes around text that would be taken for something else.

Integers have a sign and digits in base ten, or in base sixteen, eight or two after `0x`, `0o` or
`0b`. Digits in base ten that begin with a zero are no integer.
-/

namespace DocTables.Yaml

/-! ## Null and booleans -/

def isNull (s : String) : Bool := s = "null" || s = "Null" || s = "NULL" || s = "~"

def bool? (s : String) : Option Bool :=
  if s = "true" ∨ s = "True" ∨ s = "TRUE" then some true
  else if s = "false" ∨ s = "False" ∨ s = "FALSE" then some false
  else none

/-! ## Integers -/

/-- The value of digits in base ten, or after the mark of another base in that base. -/
def unsigned? : List Char → Option Nat
  | '0' :: 'x' :: cs => Digits.number? 16 cs
  | '0' :: 'o' :: cs => Digits.number? 8 cs
  | '0' :: 'b' :: cs => Digits.number? 2 cs
  | ['0'] => some 0
  | '0' :: _ => none
  | cs => Digits.number? 10 cs

/-- Leave out a plus sign. -/
def skipPlus : List Char → List Char
  | '+' :: cs => cs
  | cs => cs

/-- A whole number without a minus sign. -/
def nat? (s : String) : Option Nat := unsigned? (skipPlus s.toList)

/-- A whole number. -/
def int? (s : String) : Option Int :=
  match s.toList with
  | '-' :: cs => (unsigned? cs).map fun n => -(n : Int)
  | cs => (unsigned? (skipPlus cs)).map Int.ofNat

/-! ## Other numbers -/

/-- A decimal number, `mantissa * 10 ^ exponent`. -/
structure Decimal where
  mantissa : Nat
  exponent : Int

/-- The exponent that the text consists of, with a sign or without. -/
def exponent? (cs : List Char) : Option Int :=
  match cs with
  | '-' :: cs => (Digits.number? 10 cs).map fun n => -(n : Int)
  | cs => (Digits.number? 10 (skipPlus cs)).map Int.ofNat

/-- A decimal number with a point or without, with digits before or after it, and with an exponent
or without. -/
def Decimal.ofChars? (cs : List Char) : Option Decimal := do
  let whole := cs.takeWhile Char.isDigit
  let rest := cs.dropWhile Char.isDigit
  let (part, rest) := match rest with
    | '.' :: rest => (rest.takeWhile Char.isDigit, rest.dropWhile Char.isDigit)
    | rest => ([], rest)
  let mantissa ← Digits.number? 10 (whole ++ part)
  match rest with
  | [] => return ⟨mantissa, -part.length⟩
  | e :: rest =>
    if e = 'e' ∨ e = 'E' then
      let n ← exponent? rest
      return ⟨mantissa, n - part.length⟩
    else none

/-- From here on, numbers are too large for a binary number of sixty-four bits. -/
def floatBound : Nat := Nat.pow 2 1024 - Nat.pow 2 970

/-- The number of digits of a positive number in base ten. -/
def digitCount (n : Nat) : Nat := (Nat.toDigits 10 n).length

/-- The number is less than `floatBound`. Only numbers of 309 digits need to be compared. -/
def Decimal.isFinite (d : Decimal) : Bool :=
  let digits := digitCount d.mantissa + d.exponent
  if d.mantissa = 0 ∨ digits < 309 then true
  else if 309 < digits then false
  else if 0 ≤ d.exponent then d.mantissa * Nat.pow 10 d.exponent.toNat < floatBound
  else d.mantissa < floatBound * Nat.pow 10 (-d.exponent).toNat

/-- Leave out a sign. -/
def skipSign : List Char → List Char
  | '-' :: cs => cs
  | cs => skipPlus cs

/-- A number that is not too large, or one of the marks of infinity and of no number. -/
def isFloat (s : String) : Bool :=
  [".inf", ".Inf", ".INF", "+.inf", "+.Inf", "+.INF", "-.inf", "-.Inf", "-.INF", ".nan", ".NaN",
    ".NAN"].contains s || (Decimal.ofChars? (skipSign s.toList)).any Decimal.isFinite

/-! ## Text -/

/-- Integers that the writer knows of need no more than 128 bits, one of them for a minus sign. -/
def isKnownInt (s : String) : Bool :=
  (int? s).any fun i => if i < 0 then i.natAbs ≤ Nat.pow 2 127 else i.natAbs < Nat.pow 2 128

/-- Digits that begin with a zero. -/
def isPaddedNumber (s : String) : Bool :=
  match skipSign s.toList with
  | '0' :: cs => !cs.isEmpty && cs.all Char.isDigit
  | _ => false

/-- Text that might be taken for something else if it were written plainly. -/
def isAmbiguous (s : String) : Bool :=
  s.isEmpty || isNull s || (bool? s).isSome || isKnownInt s || isPaddedNumber s || isFloat s

end DocTables.Yaml
