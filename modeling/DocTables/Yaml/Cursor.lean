/-!
# Characters and places in a YAML text

`Cursor` is a place in a text, with the characters from there on. A cursor only moves forward, over
characters of a line with `skip` and over the end of a line with `break?`.
-/

namespace DocTables.Yaml

/-! ## Characters -/

/-- A space or a tab. -/
def isBlank (c : Char) : Bool := c = ' ' || c = '\t'

/-- A character that ends a line. -/
def isBreak (c : Char) : Bool :=
  c = '\n' || c = '\r' || c = '\u0085' || c = '\u2028' || c = '\u2029'

/-- A character of a name : a letter, a digit, a hyphen or an underscore. -/
def isNameChar (c : Char) : Bool := c.isAlphanum || c = '-' || c = '_'

/-- A character that separates the parts of a list or map on one line. -/
def isFlowIndicator (c : Char) : Bool :=
  c = ',' || c = '[' || c = ']' || c = '\x7b' || c = '\x7d'

/-- A character that a text may hold. -/
def isAllowed (c : Char) : Bool :=
  c = '\t' || c = '\n' || c = '\r' || c = '\u0085' || (0x20 ≤ c.toNat && c.toNat ≤ 0x7E) ||
    (0xA0 ≤ c.toNat && c.toNat ≤ 0xD7FF) || (0xE000 ≤ c.toNat && c.toNat ≤ 0xFFFD) ||
    0x10000 ≤ c.toNat

/-- The mark of the byte order, which is skipped at the beginning of a line. -/
def byteOrderMark : Char := '\uFEFF'

/-- What a line break is in the value of a scalar. The separators of lines and of paragraphs are kept
apart from the others. -/
def breakText (c : Char) : Char := if c = '\u2028' ∨ c = '\u2029' then c else '\n'

/-- The text ends here, or a blank or a line break follows. -/
def endsWord : List Char → Bool
  | [] => true
  | c :: _ => isBlank c || isBreak c

/-! ## Places -/

/-- A place in a text. -/
structure Cursor where
  /-- The characters from here on. -/
  rest : List Char
  /-- The number of bytes before, in UTF-8. -/
  index : Nat := 0
  line : Nat := 0
  column : Nat := 0

namespace Cursor

/-- Skip `n` characters of a line. -/
def skip (c : Cursor) (n : Nat) : Cursor :=
  { c with
    rest := c.rest.drop n
    index := c.index + (String.ofList (c.rest.take n)).utf8ByteSize
    column := c.column + n }

/-- Skip the characters of a line that have a property. -/
def skipWhile (c : Cursor) (p : Char → Bool) : Cursor := c.skip (c.rest.takeWhile p).length

/-- The name that begins here, and what follows. -/
def takeName (c : Cursor) : String × Cursor :=
  let name := c.rest.takeWhile isNameChar
  (String.ofList name, c.skip name.length)

/-- The line break here, as it is in a value, and the beginning of the next line. -/
def break? (c : Cursor) : Option (Char × Cursor) :=
  match c.rest with
  | '\r' :: '\n' :: rest =>
    some ('\n', { rest, index := c.index + 2, line := c.line + 1, column := 0 })
  | b :: rest =>
    if isBreak b then
      some (breakText b, { rest, index := c.index + b.utf8Size, line := c.line + 1, column := 0 })
    else none
  | [] => none

/-- The beginning of the next line, if the line ends here. -/
def skipBreak (c : Cursor) : Cursor := c.break?.elim c Prod.snd

/-- Skip the rest of the line. -/
def skipComment (c : Cursor) : Cursor :=
  match c.rest with
  | '#' :: _ => c.skipWhile fun c => !isBreak c
  | _ => c

/-- Skip blanks and a comment. The line must end then, and is left. -/
def endLine? (c : Cursor) : Option Cursor :=
  let c := (c.skipWhile isBlank).skipComment
  match c.rest with
  | [] => some c
  | b :: _ => if isBreak b then some c.skipBreak else none

/-- The mark of a new document begins here. -/
def atDocumentStart (c : Cursor) : Bool :=
  c.column == 0 &&
    match c.rest with
    | '-' :: '-' :: '-' :: rest => endsWord rest
    | _ => false

/-- The mark of the end of a document begins here. -/
def atDocumentEnd (c : Cursor) : Bool :=
  c.column == 0 &&
    match c.rest with
    | '.' :: '.' :: '.' :: rest => endsWord rest
    | _ => false

/-- A mark between documents begins here. -/
def atDocumentMark (c : Cursor) : Bool := c.atDocumentStart || c.atDocumentEnd

end Cursor

end DocTables.Yaml
