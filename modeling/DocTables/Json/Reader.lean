import DocTables.Data
import DocTables.Digits

/-!
# Reading JSON

`Json.parse?` reads a text into a tree. It takes every text that the JSON grammar allows, to any
depth. A tree keeps what a later question needs and no more : of a number that is not written as an
integer only that it is one, and of a string that holds half of a surrogate pair only that it does.
-/

namespace DocTables

/-- What a JSON text says. -/
inductive Json where
  | null
  | bool (b : Bool)
  | integer (i : Int)
  /-- A number with a fraction or an exponent, or minus zero. -/
  | fraction
  /-- A string, with none for one that is not a text. -/
  | text (s : Option String)
  | list (items : List Json)
  | map (fields : List (Option String × Json))
  deriving Repr, Inhabited

namespace Json

/-- The tree of a piece of data. -/
def ofData : Data → Json
  | .null => null
  | .bool b => bool b
  | .int i => integer i
  | .text s => text (some s)
  | .list items => list (ofItems items)
  | .map fields => map (ofFields fields)
where
  /-- `ofData` on every item. -/
  ofItems : List Data → List Json
    | [] => []
    | item :: items => ofData item :: ofItems items
  /-- `ofData` on every value. -/
  ofFields : List (String × Data) → List (Option String × Json)
    | [] => []
    | (name, value) :: fields => (some name, ofData value) :: ofFields fields

/-! ## Blanks -/

/-- The characters that may stand between the parts of a text. -/
def isBlank (c : Char) : Bool := c = ' ' || c = '\n' || c = '\t' || c = '\r'

/-- Leave out blanks. -/
def skipBlanks (cs : List Char) : List Char := cs.dropWhile isBlank

/-! ## Strings -/

/-- The character that a backslash and this letter stand for. -/
def unescape? (c : Char) : Option Char :=
  if c = '"' ∨ c = '\\' ∨ c = '/' then some c
  else if c = 'b' then some '\x08'
  else if c = 'f' then some '\x0c'
  else if c = 'n' then some '\n'
  else if c = 'r' then some '\r'
  else if c = 't' then some '\t'
  else none

/-- The codes of a string up to the quote that ends it, and what follows. A code is that of a
character, or one that an escape gives. -/
def stringCodes? : List Char → Option (List Nat × List Char)
  | '"' :: rest => some ([], rest)
  | '\\' :: 'u' :: a :: b :: c :: d :: rest => do
    let code ← Digits.number? 16 [a, b, c, d]
    let (codes, rest) ← stringCodes? rest
    return (code :: codes, rest)
  | '\\' :: c :: rest => do
    let c ← unescape? c
    let (codes, rest) ← stringCodes? rest
    return (c.toNat :: codes, rest)
  | c :: rest =>
    if c = '\\' ∨ c.toNat < 0x20 then none
    else do
      let (codes, rest) ← stringCodes? rest
      return (c.toNat :: codes, rest)
  | [] => none

/-- The first half of a surrogate pair. -/
def isLeading (n : Nat) : Bool := 0xD800 ≤ n && n < 0xDC00

/-- The second half of a surrogate pair. -/
def isTrailing (n : Nat) : Bool := 0xDC00 ≤ n && n < 0xE000

/-- The characters of a list of codes, in which surrogates must come in pairs. -/
def charsOfCodes? : List Nat → Option (List Char)
  | [] => some []
  | [n] => if isLeading n || isTrailing n then none else some [Char.ofNat n]
  | n :: m :: codes =>
    if isLeading n then
      if isTrailing m then
        (charsOfCodes? codes).map
          (Char.ofNat (0x10000 + (n - 0xD800) * 0x400 + (m - 0xDC00)) :: ·)
      else none
    else if isTrailing n then none
    else (charsOfCodes? (m :: codes)).map (Char.ofNat n :: ·)

/-- The string that begins after a quote. -/
def string? (cs : List Char) : Option (Option String × List Char) :=
  (stringCodes? cs).map fun (codes, rest) => ((charsOfCodes? codes).map String.ofList, rest)

/-! ## Numbers -/

/-- Leave out the digits that must begin the text. -/
def skipDigits? (cs : List Char) : Option (List Char) :=
  if (cs.takeWhile Char.isDigit).isEmpty then none else some (cs.dropWhile Char.isDigit)

/-- Leave out the fraction, if there is one, and tell whether there is. -/
def skipFraction? : List Char → Option (Bool × List Char)
  | '.' :: cs => (skipDigits? cs).map (true, ·)
  | cs => some (false, cs)

/-- Leave out the sign of an exponent. -/
def skipSign : List Char → List Char
  | '+' :: cs | '-' :: cs => cs
  | cs => cs

/-- Leave out the exponent, if there is one, and tell whether there is. -/
def skipExponent? : List Char → Option (Bool × List Char)
  | 'e' :: cs | 'E' :: cs => (skipDigits? (skipSign cs)).map (true, ·)
  | cs => some (false, cs)

/-- A number without its sign. Zero stands alone before the fraction. -/
def unsigned? (negative : Bool) (cs : List Char) : Option (Json × List Char) := do
  let digits := cs.takeWhile Char.isDigit
  if digits.length ≠ 1 ∧ digits.head? = some '0' then none
  else
    let (hasFraction, rest) ← skipFraction? (cs.dropWhile Char.isDigit)
    let (hasExponent, rest) ← skipExponent? rest
    let n ← Digits.number? 10 digits
    if hasFraction || hasExponent || (negative && n == 0) then return (.fraction, rest)
    else return (.integer (if negative then -n else n), rest)

/-- A number. -/
def number? : List Char → Option (Json × List Char)
  | '-' :: cs => unsigned? true cs
  | cs => unsigned? false cs

/-! ## Values -/

mutual

/-- The value that the text begins with, and what follows. The fuel bounds the number of parts. -/
def value? : Nat → List Char → Option (Json × List Char)
  | 0, _ => none
  | fuel + 1, cs =>
    match skipBlanks cs with
    | '"' :: rest => (string? rest).map fun (s, rest) => (.text s, rest)
    | '[' :: rest =>
      match skipBlanks rest with
      | ']' :: rest => some (.list [], rest)
      | rest => (items? fuel rest).map fun (items, rest) => (.list items, rest)
    | '\x7b' :: rest =>
      match skipBlanks rest with
      | '\x7d' :: rest => some (.map [], rest)
      | rest => (fields? fuel rest).map fun (fields, rest) => (.map fields, rest)
    | 'n' :: 'u' :: 'l' :: 'l' :: rest => some (.null, rest)
    | 't' :: 'r' :: 'u' :: 'e' :: rest => some (.bool true, rest)
    | 'f' :: 'a' :: 'l' :: 's' :: 'e' :: rest => some (.bool false, rest)
    | rest => number? rest

/-- The items up to the bracket that ends a list, of which there is at least one. -/
def items? : Nat → List Char → Option (List Json × List Char)
  | 0, _ => none
  | fuel + 1, cs => do
    let (item, rest) ← value? fuel cs
    match skipBlanks rest with
    | ']' :: rest => return ([item], rest)
    | ',' :: rest => do
      let (items, rest) ← items? fuel rest
      return (item :: items, rest)
    | _ => none

/-- The fields up to the brace that ends a map, of which there is at least one. -/
def fields? : Nat → List Char → Option (List (Option String × Json) × List Char)
  | 0, _ => none
  | fuel + 1, cs => do
    match skipBlanks cs with
    | '"' :: rest => do
      let (name, rest) ← string? rest
      match skipBlanks rest with
      | ':' :: rest => do
        let (value, rest) ← value? fuel rest
        match skipBlanks rest with
        | '\x7d' :: rest => return ([(name, value)], rest)
        | ',' :: rest => do
          let (fields, rest) ← fields? fuel rest
          return ((name, value) :: fields, rest)
        | _ => none
      | _ => none
    | _ => none

end

/-- The tree of a text. -/
def parse? (s : String) : Option Json := do
  let cs := s.toList
  let (value, rest) ← value? (2 * cs.length + 2) cs
  if (skipBlanks rest).isEmpty then some value else none

end Json

end DocTables
